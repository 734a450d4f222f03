import Depot.Proofs.Archive.Confinement
import Depot.Proofs.Archive.Mirror

/-!
What a reader sees in a copy. A path leads to the same in the source and in its copy as long as it
does not go up, in the copy, from the top or from what has taken the place of a link: the source has
other directories above these.
-/

namespace Depot.Archive

open Files

/-- A reader sees the same: a file with the same bytes, or a directory. -/
inductive ReadsAs : Node → Node → Prop
  | file (mode mode' : Nat) (data : Bytes) : ReadsAs (.file mode data) (.file mode' data)
  | dir (mode mode' : Nat) (es es' : Entries) : ReadsAs (.dir mode es) (.dir mode' es')

/-- In the source, the last of the names is that of a link. -/
def EndsInLink (root : Node) (src names : Place) : Prop :=
  ∃ init n here target, names = init ++ [n] ∧ Leads root src init here ∧
    root.get? (here ++ [n]) = some (.link target)

/-- A way in a copy goes up where the source may lead elsewhere. -/
def Strays (root : Node) (src top : Place) (w : Way) : Prop :=
  w.hops.head? = some .up ∧ ∃ names, w.place = top ++ names ∧
    (names = [] ∨ EndsInLink root src names)

/-- A way in a copy comes to what a reader of `x` sees, unless it strays. -/
def Sees (root copy : Node) (src top : Place) (x : Node) (w : Way) : Prop :=
  (∃ v, Way.Steps copy w v ∧ Strays root src top v) ∨
    ∃ links there y, Way.Steps copy w ⟨links, there, []⟩ ∧ copy.get? there = some y ∧ ReadsAs x y

theorem Sees.head {root copy x : Node} {src top : Place} {w w' : Way} (hstep : Way.Step copy w w')
    (h : Sees root copy src top x w') : Sees root copy src top x w := by
  rcases h with ⟨v, hv, hstrays⟩ | ⟨links, there, y, hsteps, hy⟩
  · exact .inl ⟨v, .head hstep hv, hstrays⟩
  · exact .inr ⟨links, there, y, .head hstep hsteps, hy⟩

/-- A copy in which all is shown, and whose links are relative. -/
structure IsMirror (root copy : Node) (src top : Place) : Prop where
  shown : ∀ names here n x, copy.IsDirAt (top ++ names) → Leads root src names here →
    root.get? (here ++ [n]) = some x → Shown root copy here (top ++ names) n x
  relative : ∀ place target, copy.get? (top ++ place) = some (.link target) →
    Path.isAbsolute target = false

namespace IsMirror

variable {root copy x : Node} {src top names here there : Place} {links last : Nat} {n : Name}
  {hs : List Hop}

/-- Going up leads from a pair of directories with the same names to another, unless it strays. -/
theorem up (hcopy : copy.IsDirAt (top ++ names)) (hleads : Leads root src names here)
    (hstrays : ¬ (names = [] ∨ EndsInLink root src names)) :
    (top ++ names).dropLast = top ++ names.dropLast ∧ copy.IsDirAt (top ++ names.dropLast) ∧
      Leads root src names.dropLast here.dropLast := by
  obtain ⟨hne, hlink⟩ := not_or.mp hstrays
  rcases List.eq_nil_or_concat names with rfl | ⟨init, n, rfl⟩
  · exact absurd rfl hne
  rw [List.concat_eq_append] at *
  obtain ⟨mid, hmid, hlast⟩ := hleads.of_concat
  rw [List.dropLast_append_of_ne_nil hne, List.dropLast_concat]
  refine ⟨rfl, hcopy.of_prefix ?_, ?_⟩
  · rw [← List.append_assoc]
    exact List.prefix_append _ _
  · rcases hlast.singleton_cases with rfl | ⟨target, ht⟩
    · rwa [List.dropLast_concat]
    · exact absurd ⟨init, n, mid, target, rfl, hmid, ht⟩ hlink

/-- Where a way of the source comes to, the same hops come to in the copy. They follow no more links
there, so the links that are left do. -/
theorem sees (h : IsMirror root copy src top) (hx : root.get? there = some x)
    (hspecial : ∀ kind, x ≠ .special kind)
    (hsteps : Way.Steps root ⟨links, here, hs⟩ ⟨last, there, []⟩) (hdir : root.IsDirAt here)
    (hcopy : copy.IsDirAt (top ++ names)) (hleads : Leads root src names here) {more : Nat}
    (hmore : links ≤ more) : Sees root copy src top x ⟨more, top ++ names, hs⟩ := by
  -- A kept link uses up a link, all other steps a hop.
  induction links using Nat.strongRecOn generalizing here names hs more with
  | ind links ihlinks =>
  induction hs generalizing here names links more with
  | nil =>
    cases hsteps.eq_of_nil
    obtain ⟨mode, es, hes⟩ := hdir
    obtain rfl := Option.some.inj (hes.symm.trans hx)
    obtain ⟨mode', es', hes'⟩ := hcopy
    exact .inr ⟨more, top ++ names, _, .refl, hes', .dir _ _ _ _⟩
  | cons hop hs ih =>
    cases hop with
    | stay =>
      rcases Relation.ReflTransGen.cases_head hsteps with heq | ⟨v, hstep, hrest⟩
      · cases heq
      cases hstep
      exact (ih links ihlinks hrest hdir hcopy hleads hmore).head (.stay hcopy)
    | up =>
      rcases Relation.ReflTransGen.cases_head hsteps with heq | ⟨v, hstep, hrest⟩
      · cases heq
      cases hstep
      by_cases hstrays : names = [] ∨ EndsInLink root src names
      · exact .inl ⟨_, .refl, rfl, names, rfl, hstrays⟩
      · obtain ⟨hplace, hcopy', hleads'⟩ := up hcopy hleads hstrays
        have hup : Way.Step copy ⟨more, top ++ names, .up :: hs⟩ _ := .up hcopy
        rw [hplace] at hup
        exact (ih links ihlinks hrest (hdir.of_prefix (List.dropLast_prefix _)) hcopy' hleads'
          hmore).head hup
    | name n =>
      have happ : Way.Steps root ⟨links, here, [.name n] ++ hs⟩ ⟨last, there, []⟩ := hsteps
      obtain ⟨links', mid, hfirst, hrest⟩ := happ.split
      obtain ⟨y, hy, hn⟩ : ∃ y, root.get? (here ++ [n]) = some y ∧ n.length ≤ 255 := by
        rcases Relation.ReflTransGen.cases_head hfirst with heq | ⟨v, hstep, -⟩
        · cases heq
        · cases hstep with
          | down hn hy hlink => exact ⟨_, hy, hn⟩
          | jump hn hy => exact ⟨_, hy, hn⟩
      have hmid : Leads root here [n] mid := ⟨links, links', hfirst⟩
      have hlinks : links' ≤ links := hfirst.links_le
      cases h.shown names here n y hcopy hleads hy with
      | special kind =>
        obtain rfl := hmid.singleton_cases.resolve_right fun ⟨_, ht⟩ => by simp [hy] at ht
        obtain ⟨-, rfl⟩ := hrest.hops_eq_nil hy rfl
        exact absurd (Option.some.inj (hx.symm.trans hy)) (hspecial kind)
      | @kept target hkept =>
        rcases Relation.ReflTransGen.cases_head hsteps with heq | ⟨v, hstep, hjump⟩
        · cases heq
        cases hstep with
        | down _ hy' hlink => exact absurd (Option.some.inj (hy'.symm.trans hy)) (hlink target)
        | @jump fewer _ _ _ target' _ hy' =>
          cases Option.some.inj (hy'.symm.trans hy)
          rw [List.append_assoc] at hkept
          have hrel := h.relative _ _ hkept
          rw [if_neg (by simp [hrel])] at hjump
          obtain ⟨more, rfl⟩ : ∃ m, more = m + 1 := ⟨more - 1, by omega⟩
          rw [← List.append_assoc] at hkept
          have hstep' : Way.Step copy ⟨more + 1, top ++ names, .name n :: hs⟩ _ := .jump hn hkept
          rw [if_neg (by simp [hrel])] at hstep'
          exact (ihlinks fewer (by omega) hjump hdir hcopy hleads (by omega)).head hstep'
      | @file _ there' mode mode' data hleads' hfile hshown =>
        obtain rfl := hmid.unique hleads'
        obtain ⟨rfl, rfl⟩ := hrest.hops_eq_nil hfile rfl
        obtain rfl := Option.some.inj (hfile.symm.trans hx)
        exact .inr ⟨more, _, _, .single (.down hn hshown (by simp)), hshown, .file _ _ _⟩
      | @dir _ there' hleads' hthere hshown =>
        obtain rfl := hmid.unique hleads'
        obtain ⟨mode, es, hes⟩ := hshown
        have hdown : Way.Step copy ⟨more, top ++ names, .name n :: hs⟩ _ :=
          .down hn hes (by simp)
        rw [List.append_assoc] at hdown hes
        refine Sees.head hdown ?_
        exact ih links' (fun m hm => ihlinks m (by omega)) hrest hthere ⟨mode, es, hes⟩
          (hleads.concat hleads') (by omega)

end IsMirror

/-- Where every target goes up before it goes down, a way only goes up from directories of the
tree itself. -/
theorem isDirAt_of_up_mem {root tree : Node} {src : Place} {w w' : Way}
    (hlinks : ∀ place target, tree.get? place = some (.link target) →
      root.get? (src ++ place) = some (.link target))
    (hsafe : IsSafeTree tree)
    (hfwd : ∀ place target, tree.get? place = some (.link target) → IsForward (hops target))
    (hw : .up ∉ w.hops) (hlex : Lexical w) (h : Way.Steps tree w w') :
    .up ∈ w'.hops → root.IsDirAt (src ++ w'.place) := by
  have key : (IsForward w'.hops ∧ Lexical w') ∧
      (.up ∈ w'.hops → root.IsDirAt (src ++ w'.place)) := by
    induction h with
    | refl => exact ⟨⟨isForward_of_up_notMem hw, hlex⟩, fun hup => absurd hup hw⟩
    | @tail u u' _ hstep ih =>
      obtain ⟨⟨hforward, hlexical⟩, hplain⟩ := ih
      refine ⟨hforward.step hsafe hfwd hlexical hstep, fun hup => ?_⟩
      cases hstep with
      | stay => exact hplain (List.mem_cons_of_mem _ hup)
      | @up links place hs h =>
        have hplace : root.IsDirAt (src ++ place) := hplain List.mem_cons_self
        exact hplace.of_prefix ((List.prefix_append_right_inj src).mpr (List.dropLast_prefix _))
      | down => exact absurd hup hforward.up_notMem
      | @jump links place hs n target hn ht =>
        have hget := hlinks _ _ ht
        rw [← List.append_assoc] at hget
        have hplace : root.IsDirAt (src ++ place) := .of_append (by simp) hget
        dsimp only
        split_ifs
        · exact hplace.of_prefix ((List.prefix_append_right_inj src).mpr List.nil_prefix)
        · exact hplace
  exact key.2

theorem not_endsInLink {root : Node} {src names : Place} (h : root.IsDirAt (src ++ names)) :
    ¬ EndsInLink root src names := by
  rintro ⟨init, n, here, target, rfl, hleads, ht⟩
  rw [← List.append_assoc] at h
  obtain rfl := hleads.eq_append (h.of_prefix (List.prefix_append _ _))
  obtain ⟨mode, es, hx⟩ := h
  rw [ht] at hx
  cases hx

/-- A way without `..` does not stray in a copy whose targets go up before they go down. -/
theorem not_strays_of_isForward {root copy tree : Node} {src top : Place} {links : Nat}
    {hs : List Hop} {w : Way} (htop : copy.get? top = some tree) (hsafe : IsSafeTree tree)
    (hlinks : ∀ place target, copy.get? (top ++ place) = some (.link target) →
      root.get? (src ++ place) = some (.link target))
    (hfwd : ∀ place target, copy.get? (top ++ place) = some (.link target) →
      IsForward (hops target))
    (hup : .up ∉ hs) (hw : Way.Steps copy ⟨links, top, hs⟩ w) : ¬ Strays root src top w := by
  rintro ⟨hhead, names, hplace, hstrays⟩
  simp only [Way.get?_under htop] at hlinks hfwd
  have hlex : Lexical ⟨links, [], hs⟩ := keepsWithin_append (a := []) hup 0
  have hkept := (isForward_of_up_notMem hup).isKept hsafe hfwd hlex
  have hunder : Way.Steps copy ((⟨links, [], hs⟩ : Way).under top) w := by simpa [Way.under] using hw
  obtain ⟨w', hw', rfl⟩ := hunder.of_under htop hsafe.isRelative hkept
  obtain rfl : w'.place = names := List.append_cancel_left hplace
  rcases hstrays with hnil | hlink
  · exact hkept w' hw' ⟨hnil, hhead⟩
  · exact not_endsInLink (isDirAt_of_up_mem hlinks hsafe hfwd hup hlex hw'
      (List.mem_of_mem_head? hhead)) hlink

/-- A copy shows all of its source, and its links are those of the source. -/
theorem isMirror_of_replicate {d d' : Disk} {source dest : Bytes} {stats : Stats} {src top : Place}
    {mode mode' : Nat} {es : Entries} (hs : d.root.IsSound)
    (hsrc : d.locate source = .ok (src, .dir mode' es))
    (hdest : d.locate dest = .ok (top, .dir mode [])) (hout : LooksOutside d ⟨source, dest⟩ top)
    (h : replicate d source dest = (d', .ok stats)) :
    d'.root.IsDirAt top ∧ IsMirror d.root d'.root src top ∧
      ∀ place target, d'.root.get? (top ++ place) = some (.link target) →
        d.root.get? (src ++ place) = some (.link target) := by
  obtain ⟨ts, hts, hcopies⟩ := copies_of_replicate h
  obtain ⟨hu, hm⟩ := Mirrors.of_copies hs hout hdest hsrc hts hcopies
  obtain ⟨tree, htop, -, hsafe⟩ := isSafeTree_of_replicate hs hdest h
  refine ⟨hu.leads.dir, ⟨fun names here n y hd hleads hy => ?_, fun place target ht => ?_⟩, hm.links⟩
  · exact (hm.shown names here n y hd hleads hy).resolve_left fun ⟨_, hmem, _⟩ => by simp at hmem
  · exact hsafe.isRelative place target (by rwa [Way.get?_under htop] at ht)

/-- What a reader sees of a copy. A path that leads to a file or a directory of the source leads, in
the copy, to a file with the same bytes or to a directory, unless its way in the copy goes up from
the top or from what has taken the place of a link. No way does that if no target of a kept link goes
up after it has gone down, and the path does not go up. -/
theorem replicate_reads_alike {d d' : Disk} {source dest : Bytes} {stats : Stats} {src top : Place}
    {shown : Node} {mode : Nat} (hs : d.root.IsSound) (hsrc : d.locate source = .ok (src, shown))
    (hdest : d.locate dest = .ok (top, .dir mode [])) (hout : LooksOutside d ⟨source, dest⟩ top)
    (h : replicate d source dest = (d', .ok stats)) :
    ∀ path links here x, walk d.root true links src (hops path) = .ok ⟨here, some x⟩ →
      (∀ kind, x ≠ .special kind) →
      ((∃ w, Way.Steps d'.root ⟨links, top, hops path⟩ w ∧ Strays d.root src top w) ∨
        ∃ there y, walk d'.root true links top (hops path) = .ok ⟨there, some y⟩ ∧ ReadsAs x y) ∧
      ((∀ place target, d'.root.get? (top ++ place) = some (.link target) →
          IsForward (hops target)) → .up ∉ hops path →
        ∃ there y, walk d'.root true links top (hops path) = .ok ⟨there, some y⟩ ∧
          ReadsAs x y) := by
  intro path links here x hwalk hspecial
  have hget := Disk.get?_of_locate_ok hsrc
  cases shown with
  | dir mode' es =>
    obtain ⟨htop, hmirror, hlinks⟩ := isMirror_of_replicate hs hsrc hdest hout h
    obtain ⟨tree, htree, -, hsafe⟩ := isSafeTree_of_replicate hs hdest h
    have hends := ends_of_walk_ok hget hwalk
    obtain ⟨last, hsteps⟩ := hends.steps
    have htop' : d'.root.IsDirAt (top ++ []) := by rwa [List.append_nil]
    have hsees := hmirror.sees hends.get?.symm hspecial hsteps ⟨mode', es, hget⟩ htop' .nil
      (Nat.le_refl links)
    rw [List.append_nil] at hsees
    have key : (∃ w, Way.Steps d'.root ⟨links, top, hops path⟩ w ∧ Strays d.root src top w) ∨
        ∃ there y, walk d'.root true links top (hops path) = .ok ⟨there, some y⟩ ∧ ReadsAs x y := by
      refine hsees.imp_right fun ⟨links', there, y, hsteps', hy, hreads⟩ => ⟨there, y, ?_, hreads⟩
      exact hsteps'.walk_eq.trans (walk_nil hy)
    refine ⟨key, fun hfwd hup => key.resolve_left ?_⟩
    rintro ⟨w, hw, hstrays⟩
    exact not_strays_of_isForward htree hsafe hlinks hfwd hup hw hstrays
  | _ =>
    -- No path leads anywhere from a root that is no directory.
    obtain ⟨hop, rest, hhops⟩ := List.exists_cons_of_ne_nil (hops_ne_nil path)
    rw [hhops, walk_cons_of_not_dir hget rfl] at hwalk
    cases hwalk

/-- A link to a directory outside, a link that goes through it and up again, and two files of one
name to which that link may lead. -/
def straying : Disk where
  root := .dir 0o755 [
    ([0x64], .dir 0o755 []),
    ([0x73], .dir 0o755 [
      ([0x66], .file 0o644 [1]),
      ([0x6C], .link [0x6D, 0x2F, 0x2E, 0x2E, 0x2F, 0x66]),
      ([0x6D], .link [0x2E, 0x2E, 0x2F, 0x78, 0x2F, 0x79])]),
    ([0x78], .dir 0o755 [
      ([0x66], .file 0o644 [2]),
      ([0x79], .dir 0o755 [])])]

theorem isSound_straying : straying.root.IsSound := by
  have hlinks : ∀ target ∈ [[0x6D, 0x2F, 0x2E, 0x2E, 0x2F, 0x66],
      [0x2E, 0x2E, 0x2F, 0x78, 0x2F, 0x79]], (Node.link target).IsSound := fun target ht =>
    Node.isSound_link_iff.mpr (by revert target; decide)
  refine Node.isSound_dir_iff.mpr ⟨.of_fst (by decide) (by decide), ?_⟩
  intro e he
  simp only [List.mem_cons, List.not_mem_nil, or_false] at he
  rcases he with rfl | rfl | rfl
  · exact Node.isSound_dir_iff.mpr ⟨.nil, by simp⟩
  · refine Node.isSound_dir_iff.mpr ⟨.of_fst (by decide) (by decide), fun e he => ?_⟩
    simp only [List.mem_cons, List.not_mem_nil, or_false] at he
    rcases he with rfl | rfl | rfl
    · exact Node.isSound_file _ _
    · exact hlinks _ (by simp)
    · exact hlinks _ (by simp)
  · refine Node.isSound_dir_iff.mpr ⟨.of_fst (by decide) (by decide), fun e he => ?_⟩
    simp only [List.mem_cons, List.not_mem_nil, or_false] at he
    rcases he with rfl | rfl
    · exact Node.isSound_file _ _
    · exact Node.isSound_dir_iff.mpr ⟨.nil, by simp⟩

theorem Copies.cases_of_take {d d₁ : Disk} {route : Route} {task : Task} {more rest : List Task}
    {s : Disk × List Task}
    (htake : ∀ stats, ∃ stats', (⟨d, stats⟩ : Copying).take route task = (⟨d₁, stats'⟩, .ok more))
    (h : Copies route (d, task :: rest) s) :
    s = (d, task :: rest) ∨ Copies route (d₁, more ++ rest) s := by
  rcases Relation.ReflTransGen.cases_head h with heq | ⟨v, hstep, hrest⟩
  · exact .inl heq.symm
  · generalize hs : (d, task :: rest) = s₀ at hstep
    cases hstep with
    | @take c c' task' more' rest' h' =>
      cases hs
      obtain ⟨stats', heq⟩ := htake c.stats
      cases heq.symm.trans h'
      exact .inr hrest

theorem not_copies_nil {d d₁ : Disk} {route : Route} {task : Task} {rest : List Task} :
    ¬ Copies route (d, []) (d₁, task :: rest) := by
  intro h
  rcases Relation.ReflTransGen.cases_head h with heq | ⟨v, hstep, -⟩
  · cases heq
  · generalize hs : (d, ([] : List Task)) = s at hstep
    cases hstep
    cases hs

theorem looksOutside_straying : LooksOutside straying ⟨[0x2F, 0x73], [0x2F, 0x64]⟩ [[0x64]] := by
  refine ⟨?_, fun ts d₁ task rest hts hc hfollowed => ?_⟩
  · refine .head (by decide) (.stay ⟨_, _, rfl⟩) ?_
    refine .head (by decide) (@Way.Step.down _ _ [] _ [0x73] _ (by decide) rfl (by simp)) ?_
    exact .of_nil (by decide)
  · have htasks : Copying.tasks straying [0x2F, 0x73] =
        .ok [.entry [[0x66]] .file, .entry [[0x6C]] .link, .entry [[0x6D]] .link] := rfl
    obtain rfl := Except.ok.inj (htasks.symm.trans hts)
    -- The file comes first, then the kept link, and then the other one.
    let d₁ := straying.put [[0x64], [0x66]] (.file 0o644 [1])
    let d₂ := d₁.put [[0x64], [0x6C]] (.link [0x6D, 0x2F, 0x2E, 0x2E, 0x2F, 0x66])
    let d₃ := d₂.put [[0x64], [0x6D]] (.dir 0o755 [])
    rcases @Copies.cases_of_take straying d₁ _ _ [] _ _ (fun stats => ⟨_, rfl⟩) hc with heq | hc
    · obtain ⟨rfl, htask⟩ := Prod.mk.inj heq
      obtain ⟨rfl, -⟩ := List.cons.inj htask
      refine .head (by decide) (.stay ⟨_, _, rfl⟩) ?_
      refine .head (by decide) (@Way.Step.down _ _ [] _ [0x73] _ (by decide) rfl (by simp)) ?_
      refine .head (by decide) (@Way.Step.down _ _ [[0x73]] _ [0x66] _ (by decide) rfl (by simp)) ?_
      exact .of_nil (by decide)
    rcases @Copies.cases_of_take d₁ d₂ _ _ [] _ _ (fun stats => ⟨_, rfl⟩) hc with heq | hc
    · obtain ⟨rfl, htask⟩ := Prod.mk.inj heq
      obtain ⟨rfl, -⟩ := List.cons.inj htask
      obtain ⟨target, ht, hnot⟩ := hfollowed
      cases ht
      cases hnot
    rcases @Copies.cases_of_take d₂ d₃ _ _ [] _ _ (fun stats => ⟨_, rfl⟩) hc with heq | hc
    · obtain ⟨rfl, htask⟩ := Prod.mk.inj heq
      obtain ⟨rfl, -⟩ := List.cons.inj htask
      refine .head (by decide) (.stay ⟨_, _, rfl⟩) ?_
      refine .head (by decide) (@Way.Step.down _ _ [] _ [0x73] _ (by decide) rfl (by simp)) ?_
      refine .head (by decide) (@Way.Step.jump _ 39 [[0x73]] _ [0x6D] _ (by decide) rfl) ?_
      refine .head (by decide) (.up ⟨_, _, rfl⟩) ?_
      refine .head (by decide) (@Way.Step.down _ _ [] _ [0x78] _ (by decide) rfl (by simp)) ?_
      refine .head (by decide) (@Way.Step.down _ _ [[0x78]] _ [0x79] _ (by decide) rfl (by simp)) ?_
      exact .of_nil (by decide)
    · exact absurd hc not_copies_nil

/-- One link leads to two files. -/
theorem replicate_reads_alike_straying :
    ∃ d', replicate straying [0x2F, 0x73] [0x2F, 0x64] = (d', .ok ⟨1, 1, 1⟩) ∧
      walk straying.root true linkLimit [[0x73]] (hops [0x6C]) =
        .ok ⟨[[0x78], [0x66]], some (.file 0o644 [2])⟩ ∧
      walk d'.root true linkLimit [[0x64]] (hops [0x6C]) =
        .ok ⟨[[0x64], [0x66]], some (.file 0o644 [1])⟩ ∧
      ∃ w, Way.Steps d'.root ⟨linkLimit, [[0x64]], hops [0x6C]⟩ w ∧
        Strays straying.root [[0x73]] [[0x64]] w := by
  refine ⟨_, rfl, rfl, rfl, ?_⟩
  obtain ⟨hsees, -⟩ := @replicate_reads_alike straying _ [0x2F, 0x73] [0x2F, 0x64] _ [[0x73]]
    [[0x64]] _ _ isSound_straying rfl rfl looksOutside_straying rfl [0x6C] linkLimit _
    (.file 0o644 [2]) rfl (by simp)
  refine hsees.resolve_right ?_
  rintro ⟨there, y, hwalk, hreads⟩
  cases hwalk
  cases hreads

end Depot.Archive
