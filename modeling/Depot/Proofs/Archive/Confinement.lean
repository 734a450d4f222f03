import Depot.Archive.Contents
import Depot.Proofs.Archive.Copying
import Depot.Proofs.Files.Confinement
import Depot.Proofs.Path.Relative

/-!
How far the links of an archive lead. A link is kept if its own target, read name by name, stays in
the tree. That is not enough: a link whose target goes through another link, and up from there, may
leave the tree, and a file outside the archive is then read through it.
-/

namespace Depot.Archive

open Files

/-- Hops that start `depth` levels down and pass only directories never climb above the top. -/
def keepsWithin : Nat → List Hop → Bool
  | _, [] => true
  | depth, .stay :: hs => keepsWithin depth hs
  | depth, .name _ :: hs => keepsWithin (depth + 1) hs
  | 0, .up :: _ => false
  | depth + 1, .up :: hs => keepsWithin depth hs

theorem stays_filterMap (depth : Nat) (parts : List Bytes) :
    SafeLink.stays depth (parts.filterMap Path.Component.ofPart?) =
      keepsWithin depth (parts.map Hop.ofPart) := by
  induction parts generalizing depth with
  | nil => rfl
  | cons part parts ih =>
    by_cases hstay : part = [] ∨ part = [Path.dot]
    · have hc : Path.Component.ofPart? part = none := if_pos hstay
      have hhop : Hop.ofPart part = .stay := if_pos hstay
      rw [List.filterMap_cons_none hc, List.map_cons, hhop, keepsWithin]
      exact ih depth
    · by_cases hup : part = [Path.dot, Path.dot]
      · have hc : Path.Component.ofPart? part = some .parent := by
          rw [Path.Component.ofPart?, if_neg hstay, if_pos hup]
        have hhop : Hop.ofPart part = .up := by rw [Hop.ofPart, if_neg hstay, if_pos hup]
        rw [List.filterMap_cons_some hc, List.map_cons, hhop]
        cases depth with
        | zero => rfl
        | succ depth => exact ih depth
      · have hc : Path.Component.ofPart? part = some (.name part) := by
          rw [Path.Component.ofPart?, if_neg hstay, if_neg hup]
        have hhop : Hop.ofPart part = .name part := by rw [Hop.ofPart, if_neg hstay, if_neg hup]
        rw [List.filterMap_cons_some hc, List.map_cons, hhop, SafeLink.stays, keepsWithin]
        exact ih (depth + 1)

theorem of_isSafe {place : Place} {target : Bytes} (h : SafeLink.isSafe place target = true) :
    Path.isAbsolute target = false ∧ keepsWithin (place.length - 1) (hops target) = true := by
  have hstays : SafeLink.stays (place.length - 1) (Path.components target) = true :=
    (Bool.and_eq_true_iff.mp h).2
  rw [Path.components, Path.leading] at hstays
  have habs : Path.isAbsolute target = false := by
    by_contra hnot
    rw [if_pos (by simpa using hnot)] at hstays
    cases hstays
  refine ⟨habs, ?_⟩
  rw [habs, if_neg (by simp)] at hstays
  rw [hops, ← stays_filterMap]
  split_ifs at hstays
  · exact hstays
  · exact hstays

theorem keepsWithin_append {a b : List Hop} (hb : .up ∉ b) (depth : Nat) :
    keepsWithin depth (a ++ b) = keepsWithin depth a := by
  induction a generalizing depth with
  | nil =>
    induction b generalizing depth with
    | nil => rfl
    | cons hop b ih =>
      obtain ⟨hhop, hrest⟩ := List.ne_and_not_mem_of_not_mem_cons hb
      cases hop with
      | stay => exact ih hrest depth
      | up => exact absurd rfl hhop
      | name n => exact ih hrest (depth + 1)
  | cons hop a ih =>
    cases hop with
    | stay => exact ih depth
    | name n => exact ih (depth + 1)
    | up =>
      cases depth with
      | zero => rfl
      | succ depth => exact ih depth

/-- All links of a tree are safe where they are. -/
def IsSafeTree (tree : Node) : Prop :=
  ∀ place target, tree.get? place = some (.link target) → SafeLink.isSafe place target = true

theorem IsSafeTree.isRelative {tree : Node} (h : IsSafeTree tree) : tree.IsRelative :=
  fun place target ht => (of_isSafe (h place target ht)).1

section

variable {tree : Node} {w w' : Way}

/-- The way does not climb as long as it follows no link. -/
def Lexical (w : Way) : Prop := keepsWithin w.place.length w.hops = true

theorem Lexical.not_climbs (h : Lexical w) : ¬ w.Climbs := by
  rintro ⟨hplace, hhops⟩
  obtain ⟨hs, hhs⟩ := List.head?_eq_some_iff.mp hhops
  rw [Lexical, hplace, hhs] at h
  cases h

theorem Lexical.step (h : Lexical w) (hstep : Way.Step tree w w') :
    w'.links < w.links ∨ w'.links = w.links ∧ Lexical w' := by
  cases hstep with
  | stay => exact .inr ⟨rfl, h⟩
  | @up links place hs =>
    refine .inr ⟨rfl, ?_⟩
    rw [Lexical] at h ⊢
    cases hlen : place.length with
    | zero => simp [hlen, keepsWithin] at h
    | succ depth =>
      simp only [hlen, keepsWithin] at h
      simpa [hlen] using h
  | down hn hget hlink =>
    refine .inr ⟨rfl, ?_⟩
    rw [Lexical] at h ⊢
    simpa [keepsWithin] using h
  | jump => exact .inl (Nat.lt_succ_self _)

/-- A way that climbs, though what is said of it does not, has followed a link. -/
theorem Lexical.links_lt (h : Lexical w) (hsteps : Way.Steps tree w w') (hc : w'.Climbs) :
    w'.links < w.links := by
  have key : w'.links < w.links ∨ w'.links = w.links ∧ Lexical w' := by
    clear hc
    induction hsteps with
    | refl => exact .inr ⟨rfl, h⟩
    | @tail u u' _ hstep ih =>
      have hle := hstep.links_le
      rcases ih with ih | ⟨heq, hu⟩
      · exact .inl (by omega)
      · rcases hu.step hstep with hlt | ⟨heq', hu'⟩
        · exact .inl (by omega)
        · exact .inr ⟨by omega, hu'⟩
  exact key.resolve_right fun hw => hw.2.not_climbs hc

/-- No `..` comes after a name. -/
def IsForward (hs : List Hop) : Prop := hs.Pairwise fun a b => ∀ n, a = .name n → b ≠ .up

theorem IsForward.up_notMem {n : Name} {hs : List Hop} (h : IsForward (.name n :: hs)) :
    .up ∉ hs := fun hmem => (List.pairwise_cons.mp h).1 .up hmem n rfl rfl

theorem isForward_of_up_notMem {hs : List Hop} (h : .up ∉ hs) : IsForward hs := by
  refine List.pairwise_of_forall_mem_list fun a _ b hb n _ hup => h (hup ▸ hb)

theorem IsForward.append {a b : List Hop} (ha : IsForward a) (hb : .up ∉ b) :
    IsForward (a ++ b) := by
  refine List.pairwise_append.mpr ⟨ha, isForward_of_up_notMem hb, fun x _ y hy n _ hup => ?_⟩
  exact hb (hup ▸ hy)

/-- Where every target goes up before it goes down, a way that keeps to that never climbs. -/
theorem IsForward.step (hsafe : IsSafeTree tree)
    (hfwd : ∀ place target, tree.get? place = some (.link target) → IsForward (hops target))
    (h : IsForward w.hops) (hlex : Lexical w) (hstep : Way.Step tree w w') :
    IsForward w'.hops ∧ Lexical w' := by
  have hlex' := hlex.step hstep
  cases hstep with
  | stay => exact ⟨(List.pairwise_cons.mp h).2, hlex⟩
  | up hdir => exact ⟨(List.pairwise_cons.mp h).2, (hlex'.resolve_left (Nat.lt_irrefl _)).2⟩
  | down => exact ⟨(List.pairwise_cons.mp h).2, (hlex'.resolve_left (Nat.lt_irrefl _)).2⟩
  | @jump links place hs n target hn hget =>
    have hup := h.up_notMem
    obtain ⟨habs, hkeeps⟩ := of_isSafe (hsafe _ _ hget)
    refine ⟨(hfwd _ _ hget).append hup, ?_⟩
    rw [Lexical, if_neg (by simp [habs]), keepsWithin_append hup]
    simpa using hkeeps

theorem IsForward.isKept (hsafe : IsSafeTree tree)
    (hfwd : ∀ place target, tree.get? place = some (.link target) → IsForward (hops target))
    (h : IsForward w.hops) (hlex : Lexical w) : w.IsKept tree := by
  intro w' hsteps
  have key : IsForward w'.hops ∧ Lexical w' := by
    induction hsteps with
    | refl => exact ⟨h, hlex⟩
    | tail _ hstep ih => exact ih.1.step hsafe hfwd ih.2 hstep
  exact key.2.not_climbs

end

/-- The way of the target of a link, from the directory that holds the link. -/
def linkWay (links : Nat) (place : Place) (target : Bytes) : Way :=
  ⟨links, place.dropLast, hops target⟩

/-- The way of a path of names, from the root. -/
def pathWay (links : Nat) (place : Place) : Way := ⟨links, [], place.map .name⟩

theorem of_read_ok {a : Archive} {d : Disk} {path : String} {data : Bytes}
    (h : a.read d path = .ok (some data)) :
    ∃ normal place here node, Path.normalize path = .ok normal ∧ Path.IsPlace normal place ∧
      d.locate (Path.below a.root place) = .ok (here, node) ∧ Disk.contents node = .ok data := by
  rw [Archive.read] at h
  cases hnormal : Path.normalize path with
  | error f =>
    rw [hnormal] at h
    cases h
  | ok normal =>
    rw [hnormal] at h
    simp only [bind, Except.bind] at h
    split_ifs at h with hroot
    rcases Path.of_normalize_ok hnormal with hdot | ⟨place, hplace⟩
    · exact absurd hdot hroot
    · rw [hplace.join_eq] at h
      have hread : d.read (Path.below a.root place) = .ok data := by
        simp only [pure, Except.pure] at h
        split at h
        · cases h
        · cases h
        · split_ifs at h
          split at h
          · next hdata =>
            obtain rfl := Option.some.inj (Except.ok.inj h)
            exact hdata
          · cases h
          · cases h
      rw [Disk.read, Disk.stat] at hread
      cases hloc : d.locate (Path.below a.root place) with
      | error e =>
        rw [hloc] at hread
        cases hread
      | ok found =>
        obtain ⟨here, node⟩ := found
        rw [hloc] at hread
        exact ⟨normal, place, here, node, rfl, hplace, hloc, hread⟩

theorem get?_of_locate_below {d : Disk} {root : Bytes} {top place here : Place} {tree node : Node}
    (hl : d.LeadsTo root top) (htop : d.root.get? top = some tree) (hrel : tree.IsRelative)
    (hne : place ≠ []) (hnames : ∀ n ∈ place, IsName n)
    (hkept : ∀ links, (pathWay links place).IsKept tree)
    (h : d.locate (Path.below root place) = .ok (here, node)) :
    ∃ rel, here = top ++ rel ∧ tree.get? rel = some node := by
  have hspells := spells_below hl.ne_nil hl.nul hne hnames
  obtain ⟨links, hwalks⟩ := hl.walks
  have hgo := Disk.go_of_locate_ok h
  rw [Disk.go_eq hspells.ne_nil hspells.nul, Disk.startPlace, hspells.absolute,
    ← hspells.hops.walk_eq] at hgo
  have hwalk := (hwalks d.root .refl hl.dir true _ (.inl rfl)).symm.trans hgo
  obtain ⟨links', hsteps⟩ := (ends_of_walk_ok htop hwalk).steps
  have hsteps' : Way.Steps d.root ((pathWay links place).under top)
      ⟨links', here, []⟩ := by simpa [Way.under, pathWay] using hsteps
  obtain ⟨w', -, hw'⟩ := hsteps'.of_under htop hrel (hkept links)
  have hhere : here = top ++ w'.place := congrArg Way.place hw'
  have hnode := Disk.get?_of_locate_ok h
  rw [hhere, Way.get?_under htop] at hnode
  exact ⟨w'.place, hhere, hnode⟩

theorem lexical_linkWay {links : Nat} {place : Place} {target : Bytes}
    (h : SafeLink.isSafe place target = true) : Lexical (linkWay links place target) := by
  rw [Lexical, linkWay, List.length_dropLast]
  exact (of_isSafe h).2

theorem up_notMem_map_name (place : Place) : .up ∉ place.map Hop.name := by simp

theorem lexical_pathWay (links : Nat) (place : Place) : Lexical (pathWay links place) := by
  have h := keepsWithin_append (a := []) (up_notMem_map_name place) 0
  exact h

theorem IsSafeTree.of_agree {tree archived : Node} (h : IsSafeTree tree) (hdir : archived.IsDirAt [])
    (hsame : ∀ place, place ≠ [] → archived.get? place = tree.get? place) :
    IsSafeTree archived := by
  intro place target ht
  by_cases hnil : place = []
  · subst hnil
    obtain ⟨mode, es, hx⟩ := hdir
    simp [hx] at ht
  · exact h place target (hsame place hnil ▸ ht)

theorem isSafeTree_of_replicate {d d' : Disk} {source dest : Bytes} {stats : Stats} {top : Place}
    {mode : Nat} (hs : d.root.IsSound) (hdest : d.locate dest = .ok (top, .dir mode []))
    (h : replicate d source dest = (d', .ok stats)) :
    ∃ tree, d'.root.get? top = some tree ∧ tree.IsDirAt [] ∧ IsSafeTree tree := by
  have hleads := Disk.leadsTo_of_locate hdest
  obtain ⟨tasks, htasks, hcopies⟩ := copies_of_replicate h
  have hbegin : Underway top (⟨source, dest⟩ : Route).dest d tasks :=
    .of_tasks hs hleads (Disk.get?_of_locate_ok hdest) htasks
  obtain ⟨hend, -, -⟩ := hbegin.copies hcopies
  obtain ⟨mode', es, htop⟩ := hend.leads.dir
  refine ⟨.dir mode' es, htop, ⟨mode', es, Node.get?_nil _⟩, fun place target ht => ?_⟩
  exact hend.links place target ((Way.get?_under htop place).trans ht)

/-- How far the links of an archive lead. A link that was kept stays inside just if its way, in the
archive alone, never climbs above the root, which it can only do after it has followed another link.
What is read from an archive by a path whose way does not climb is in the archive. Nothing climbs if
no target goes up after it has gone down. -/
theorem replicate_stays_below_iff {d d' : Disk} {source dest : Bytes} {stats : Stats} {top : Place}
    {mode : Nat} (hs : d.root.IsSound) (hdest : d.locate dest = .ok (top, .dir mode []))
    (h : replicate d source dest = (d', .ok stats)) :
    ∃ tree, d'.root.get? top = some tree ∧
      (∀ links place target, tree.get? place = some (.link target) →
        SafeLink.isSafe place target = true ∧
        (((linkWay links place target).under top).StaysBelow d'.root top ↔
          top = [] ∨ (linkWay links place target).IsKept tree) ∧
        ∀ w', Way.Steps tree (linkWay links place target) w' → w'.Climbs → w'.links < links) ∧
      (∀ (later : Disk) (a : Archive) (home : Place) (archived : Node),
        later.LeadsTo a.root home → later.root.get? home = some archived →
        (∀ place, place ≠ [] → archived.get? place = tree.get? place) →
        (∀ links place, ((pathWay links place).under home).StaysBelow later.root home ↔
          home = [] ∨ (pathWay links place).IsKept archived) ∧
        ∀ path data, a.read later path = .ok (some data) →
          (∀ normal place links, Path.normalize path = .ok normal → Path.IsPlace normal place →
            (pathWay links place).IsKept archived) →
          ∃ place node, archived.get? place = some node ∧ Disk.contents node = .ok data) ∧
      ((∀ place target, tree.get? place = some (.link target) → IsForward (hops target)) →
        (∀ links place target, tree.get? place = some (.link target) →
          (linkWay links place target).IsKept tree) ∧
        ∀ links place, (pathWay links place).IsKept tree) := by
  obtain ⟨tree, htop, hdir, hsafe⟩ := isSafeTree_of_replicate hs hdest h
  refine ⟨tree, htop, fun links place target ht => ?_, fun later a home archived hl hhome hsame => ?_,
    fun hfwd => ⟨fun links place target ht => ?_, fun links place => ?_⟩⟩
  · have hself := hsafe place target ht
    refine ⟨hself, Way.staysBelow_iff htop hsafe.isRelative hdir, fun w' hw' hclimbs => ?_⟩
    exact (lexical_linkWay hself).links_lt hw' hclimbs
  · have hdir' : archived.IsDirAt [] := by
      rw [← Way.isDirAt_under hhome, List.append_nil]
      exact hl.dir
    have hsafe' := hsafe.of_agree hdir' hsame
    refine ⟨fun links place => Way.staysBelow_iff hhome hsafe'.isRelative hdir',
      fun path data hread hkept => ?_⟩
    obtain ⟨normal, place, here, node, hnormal, hplace, hloc, hdata⟩ := of_read_ok hread
    obtain ⟨rel, -, hrel⟩ := get?_of_locate_below hl hhome hsafe'.isRelative hplace.ne_nil
      hplace.names (fun links => hkept normal place links hnormal hplace) hloc
    exact ⟨rel, node, hrel, hdata⟩
  · exact (hfwd place target ht).isKept hsafe hfwd (lexical_linkWay (hsafe place target ht))
  · exact (isForward_of_up_notMem (up_notMem_map_name place)).isKept hsafe hfwd
      (lexical_pathWay links place)

/-- Two safe links of which one goes up from the other, and a file beside the tree. -/
def escaping : Disk where
  root := .dir 0o755 [
    ([0x64], .dir 0o755 []),
    ([0x73], .dir 0o755 [
      ([0x6C], .link [0x73, 0x2F, 0x2E, 0x2E, 0x2F, 0x78]),
      ([0x73], .link [0x2E])]),
    ([0x78], .file 0o644 [1, 2, 3])]

theorem isSound_escaping : escaping.root.IsSound := by
  have hlinks : ∀ target ∈ [[0x73, 0x2F, 0x2E, 0x2E, 0x2F, 0x78], [0x2E]],
      (Node.link target).IsSound := fun target ht =>
    Node.isSound_link_iff.mpr (by revert target; decide)
  refine Node.isSound_dir_iff.mpr ⟨.of_fst (by decide) (by decide), ?_⟩
  intro e he
  simp only [List.mem_cons, List.not_mem_nil, or_false] at he
  rcases he with rfl | rfl | rfl
  · exact Node.isSound_dir_iff.mpr ⟨.nil, by simp⟩
  · refine Node.isSound_dir_iff.mpr ⟨.of_fst (by decide) (by decide), fun e he => ?_⟩
    simp only [List.mem_cons, List.not_mem_nil, or_false] at he
    rcases he with rfl | rfl <;> exact hlinks _ (by simp)
  · exact Node.isSound_file _ _

/-- Both links are kept, and one of them leads to the file outside. -/
theorem replicate_stays_below_iff_escaping :
    ∃ d', replicate escaping [0x2F, 0x73] [0x2F, 0x64] = (d', .ok ⟨0, 2, 0⟩) ∧
      ¬ ((linkWay linkLimit [[0x6C]] [0x73, 0x2F, 0x2E, 0x2E, 0x2F, 0x78]).under
        [[0x64]]).StaysBelow d'.root [[0x64]] ∧
      Archive.read ⟨⟨""⟩, [0x2F, 0x64]⟩ d' "l" = .ok (some [1, 2, 3]) := by
  refine ⟨_, rfl, ?_, rfl⟩
  obtain ⟨tree, htop, hlinks, -⟩ := @replicate_stays_below_iff escaping _ [0x2F, 0x73] [0x2F, 0x64] _
    [[0x64]] 0o755 isSound_escaping rfl rfl
  obtain rfl := Option.some.inj htop
  obtain ⟨-, hiff, -⟩ := hlinks linkLimit [[0x6C]] _ rfl
  rw [hiff]
  rintro (hnil | hkept)
  · cases hnil
  · refine hkept ⟨39, [], [.up, .name [0x78]]⟩ ?_ ⟨rfl, rfl⟩
    refine .head (b := ⟨39, [], [.stay, .up, .name [0x78]]⟩) ?_ (.head ?_ .refl)
    · exact @Way.Step.jump _ 39 [] _ [0x73] [0x2E] (by decide) rfl
    · exact .stay ⟨_, _, rfl⟩

end Depot.Archive
