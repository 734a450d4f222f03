import Depot.Proofs.Files.Operations
import Depot.Proofs.Files.Tracing
import Depot.Proofs.Path.Normal
import Mathlib.Data.List.Basic

/-!
The directory above a path. A path is written again from its start and the parts that it says; the
directory above it is written from all but the last. What a path finds in a directory is found on the
way through that directory, so it need not be made.
-/

namespace Depot.Files

theorem length_joinWith_le_of_sublist {α : Type} {sep : α} {parts more : List (List α)}
    (h : parts.Sublist more) : (joinWith [sep] parts).length ≤ (joinWith [sep] more).length := by
  induction h with
  | slnil => exact Nat.le_refl _
  | @cons parts more part h ih =>
    cases more with
    | nil =>
      obtain rfl := List.sublist_nil.mp h
      exact Nat.zero_le _
    | cons next more =>
      simp only [joinWith_cons_cons, List.length_append]
      omega
  | @cons_cons parts more part h ih =>
    cases parts with
    | nil => cases more <;> simp [joinWith]
    | cons first parts =>
      cases more with
      | nil => cases h
      | cons next more =>
        simp only [joinWith_cons_cons, List.length_append]
        omega

/-- A path with the start of another one and the given parts. -/
def spelling (path : Bytes) (parts : List Bytes) : Bytes :=
  if Path.isAbsolute path then Path.slash :: joinWith [Path.slash] parts
  else joinWith [Path.slash]
    (if (splitAtSep Path.slash path).head? = some [Path.dot] then [Path.dot] :: parts else parts)

theorem ofComponents_leading (path : Bytes) {cs : List Path.Component} (h : .root ∉ cs) :
    Path.ofComponents (Path.leading path ++ cs) = spelling path (cs.map Path.Component.bytes) := by
  unfold Path.leading spelling
  split_ifs with habs hdot
  · rfl
  · rw [ofComponents_of_head_ne (by simp), List.map_append]
    rfl
  · exact ofComponents_of_head_ne fun hhead => h (List.mem_of_mem_head? hhead)

theorem root_notMem_filterMap (parts : List Bytes) :
    .root ∉ parts.filterMap Path.Component.ofPart? := by
  intro h
  obtain ⟨part, -, hpart⟩ := List.mem_filterMap.mp h
  exact (bytes_of_ofPart? hpart).2 rfl

theorem normal_eq_spelling (path : Bytes) : normal path = spelling path (said path) := by
  unfold normal Path.components
  rw [ofComponents_leading path (root_notMem_filterMap _), map_bytes_filterMap]
  rfl

theorem parent?_eq_spelling {path : Bytes} (h : said path ≠ []) :
    Path.parent? path = some (spelling path (said path).dropLast) := by
  have hroot := root_notMem_filterMap (splitAtSep Path.slash path)
  have hsaid : said path =
      ((splitAtSep Path.slash path).filterMap Path.Component.ofPart?).map Path.Component.bytes :=
    (map_bytes_filterMap _).symm
  unfold Path.parent? Path.components
  rw [hsaid] at h ⊢
  generalize (splitAtSep Path.slash path).filterMap Path.Component.ofPart? = cs at *
  obtain ⟨init, c, rfl⟩ := (List.eq_nil_or_concat' cs).resolve_left (by simpa using h)
  have hc : c ≠ .root := fun hc => hroot (by simp [hc])
  rw [← List.append_assoc, List.getLast?_concat, List.dropLast_concat,
    ofComponents_leading path fun hmem => hroot (List.mem_append_left _ hmem), List.map_append,
    List.map_singleton, List.dropLast_concat]
  cases c <;> first | rfl | exact absurd rfl hc

/-! ### What a path says that is written again -/

theorem said_slash (path : Bytes) : said (Path.slash :: path) = said path := by
  have hsplit : splitAtSep Path.slash (Path.slash :: path) = [] :: splitAtSep Path.slash path := by
    simp [splitAtSep]
  unfold said
  rw [hsplit, List.filter_cons_of_neg (by simp [Hop.ofPart])]

theorem said_joinWith {parts : List Bytes} (h : ∀ part ∈ parts, Path.slash ∉ part) :
    said (joinWith [Path.slash] parts) = parts.filter fun part => Hop.ofPart part ≠ .stay := by
  cases parts with
  | nil => decide
  | cons part parts =>
    unfold said
    rw [splitAtSep_joinWith (by simp) h]

section spelling

variable {path : Bytes} {parts : List Bytes} (hsub : parts.Sublist (said path))
include hsub

theorem said_spelling : said (spelling path parts) = parts := by
  have hslash : ∀ part ∈ parts, Path.slash ∉ part := fun part hp => (mem_said (hsub.subset hp)).2.1
  have hkept : parts.filter (fun part => Hop.ofPart part ≠ .stay) = parts := by
    rw [List.filter_eq_self]
    exact fun part hp => (List.mem_filter.mp (hsub.subset hp)).2
  unfold spelling
  split_ifs with habs hdot
  · rw [said_slash, said_joinWith hslash, hkept]
  · rw [said_joinWith (by simpa using ⟨by decide, hslash⟩), List.filter_cons_of_neg (by decide), hkept]
  · rw [said_joinWith hslash, hkept]

theorem isAbsolute_spelling : Path.isAbsolute (spelling path parts) = Path.isAbsolute path := by
  have hparts : ∀ part ∈ parts, part ≠ [] ∧ Path.slash ∉ part := by
    intro part hp
    obtain ⟨hne, hslash, -⟩ := mem_said (hsub.subset hp)
    exact ⟨hne, hslash⟩
  unfold spelling
  split_ifs with habs hdot
  · rw [habs]
    rfl
  · rw [isAbsolute_joinWith_parts (by simpa using ⟨by decide, by simpa using hparts⟩)]
    simpa using habs
  · rw [isAbsolute_joinWith_parts hparts]
    simpa using habs

theorem nul_notMem_spelling (hnul : (0 : UInt8) ∉ path) : (0 : UInt8) ∉ spelling path parts := by
  have hparts : ∀ part ∈ parts, (0 : UInt8) ∉ part := fun part hp h0 =>
    hnul ((mem_said (hsub.subset hp)).2.2 0 h0)
  unfold spelling
  split_ifs with habs hdot
  · simpa [Path.slash] using nul_notMem_joinWith hparts
  · exact nul_notMem_joinWith (by simpa using ⟨by decide, hparts⟩)
  · exact nul_notMem_joinWith hparts

/-- A path is never written longer than it was. -/
theorem length_spelling_le : (spelling path parts).length ≤ path.length := by
  have hfiltered (path : Bytes) : (said path).Sublist (splitAtSep Path.slash path) :=
    List.filter_sublist
  unfold spelling
  split_ifs with habs hdot
  · obtain ⟨rest, rfl⟩ := List.head?_eq_some_iff.mp (of_decide_eq_true habs)
    rw [said_slash] at hsub
    have hle := @length_joinWith_le_of_sublist _ Path.slash _ _ (hsub.trans (hfiltered rest))
    rw [joinWith_splitAtSep] at hle
    simpa using hle
  · obtain ⟨rest, hrest⟩ := List.head?_eq_some_iff.mp hdot
    have hsaid : said path = rest.filter fun part => Hop.ofPart part ≠ .stay := by
      unfold said
      rw [hrest, List.filter_cons_of_neg (by decide)]
    have hall : ([Path.dot] :: parts).Sublist (splitAtSep Path.slash path) := by
      rw [hrest]
      rw [hsaid] at hsub
      exact (hsub.trans List.filter_sublist).cons_cons _
    have hle := @length_joinWith_le_of_sublist _ Path.slash _ _ hall
    rwa [joinWith_splitAtSep] at hle
  · have hle := @length_joinWith_le_of_sublist _ Path.slash _ _ (hsub.trans (hfiltered path))
    rwa [joinWith_splitAtSep] at hle

end spelling

theorem length_normal_le (path : Bytes) : (normal path).length ≤ path.length := by
  rw [normal_eq_spelling]
  exact length_spelling_le (List.Sublist.refl _)

theorem normal_ne_nil {path : Bytes} (h : path ≠ []) : normal path ≠ [] := by
  rw [normal_eq_spelling]
  unfold spelling
  split_ifs with habs hdot
  · simp
  · cases said path <;> simp [joinWith]
  · obtain ⟨b, bs, rfl⟩ := List.exists_cons_of_ne_nil h
    have hb : b ≠ Path.slash := by
      rintro rfl
      exact habs rfl
    have hfirst : ∃ part parts, splitAtSep Path.slash (b :: bs) = (b :: part) :: parts := by
      rw [splitAtSep, if_neg hb]
      cases splitAtSep Path.slash bs with
      | nil => exact ⟨[], [], rfl⟩
      | cons part parts => exact ⟨part, parts, rfl⟩
    obtain ⟨part, parts, hsplit⟩ := hfirst
    have hmem : b :: part ∈ said (b :: bs) := by
      refine List.mem_filter.mpr ⟨by rw [hsplit]; exact List.mem_cons_self, ?_⟩
      rw [hsplit] at hdot
      have hne : b :: part ≠ [Path.dot] := by simpa using hdot
      unfold Hop.ofPart
      rw [if_neg (by simpa using hne)]
      split_ifs <;> simp
    exact joinWith_ne_nil (List.ne_nil_of_mem hmem) fun p hp => (mem_said hp).1

/-! ### Directories that are there -/

/-- A way that ends somewhere finds something also if the link at its end is not followed. -/
theorem Way.Steps.walk_end {root x : Node} {w : Way} {links : Nat} {here : Place}
    (h : Way.Steps root w ⟨links, here, []⟩) (hx : root.get? here = some x) :
    ∃ place y, walk root false w.links w.place w.hops = .ok ⟨place, some y⟩ := by
  induction h using Relation.ReflTransGen.head_induction_on with
  | refl => exact ⟨here, x, walk_nil hx⟩
  | @head w v hstep _ ih =>
    have hdir := hstep.isDirAt
    cases hstep with
    | stay _ =>
      rw [walk_stay hdir]
      exact ih
    | up _ =>
      rw [walk_up hdir]
      exact ih
    | @down links place hs n child hn hget hlink =>
      rw [walk_name hdir, if_neg (by omega), hget]
      cases child with
      | link target => exact absurd rfl (hlink target)
      | _ => exact ih
    | @jump links place hs n target hn hget =>
      rw [walk_name hdir, if_neg (by omega), hget]
      by_cases hnil : hs = []
      · exact ⟨place ++ [n], .link target, by simp [hnil]⟩
      · simpa [hnil] using ih

theorem steps_of_walk {root x y : Node} {links : Nat} {place here : Place} {hs : List Hop}
    (hy : root.get? place = some y) (h : walk root true links place hs = .ok ⟨here, some x⟩) :
    ∃ last, Way.Steps root ⟨links, place, hs⟩ ⟨last, here, []⟩ ∧ root.get? here = some x := by
  have hends := ends_of_walk_ok hy h
  obtain ⟨last, hsteps⟩ := hends.steps
  exact ⟨last, hsteps, hends.get?.symm⟩

theorem walk_append_stays {root x : Node} {links : Nat} {place here : Place} {hs : List Hop}
    (k : Nat) (h : walk root true links place (hs ++ List.replicate k .stay) = .ok ⟨here, some x⟩) :
    walk root true links place hs = .ok ⟨here, some x⟩ := by
  induction k with
  | zero => simpa using h
  | succ k ih =>
    rw [List.replicate_succ', ← List.append_assoc, Path.walk_concat_stay] at h
    exact ih h.1

namespace Disk

variable {d : Disk} {path other : Bytes} {here place : Place} {x : Node}

theorem hops_eq_dropStays (path : Bytes) :
    ∃ k, hops path = dropStays path ++ List.replicate k .stay := by
  unfold dropStays
  induction hops path using List.reverseRecOn with
  | nil => exact ⟨0, rfl⟩
  | append_singleton hs hop ih =>
    rw [List.reverse_concat]
    by_cases hstay : hop = .stay
    · obtain ⟨k, hk⟩ := ih
      subst hstay
      refine ⟨k + 1, ?_⟩
      rw [List.dropWhile_cons_of_pos (by simp), List.replicate_succ', ← List.append_assoc, ← hk]
    · refine ⟨0, ?_⟩
      rw [List.dropWhile_cons_of_neg (by simpa using hstay)]
      simp

/-- A path that leads somewhere starts somewhere. -/
theorem exists_start_of_go {found : Found} (h : d.go true path = .ok found) :
    ∃ y, d.root.get? (d.startPlace path) = some y := by
  obtain ⟨hne, hnul, -⟩ := ends_of_go_ok h
  rw [go_eq hne hnul] at h
  cases hy : d.root.get? (d.startPlace path) with
  | none =>
    rw [walk_of_none hy] at h
    cases h
  | some y => exact ⟨y, rfl⟩

theorem makeDir_of_locate (h : d.locate path = .ok (here, x)) (mode : Nat) :
    d.makeDir path mode = .error .exists := by
  obtain ⟨hlimit, hgo⟩ := locate_eq_ok_iff.mp h
  obtain ⟨hne, hnul, -⟩ := ends_of_go_ok hgo
  obtain ⟨y, hy⟩ := exists_start_of_go hgo
  obtain ⟨k, hk⟩ := hops_eq_dropStays path
  rw [go_eq hne hnul, hk] at hgo
  obtain ⟨last, hsteps, hx⟩ := steps_of_walk hy (walk_append_stays k hgo)
  obtain ⟨place, z, hwalk⟩ := hsteps.walk_end hx
  have htravel := (travel_start d false path (dropStays path)).trans hwalk
  unfold makeDir
  rw [if_neg (by omega), if_neg hne, if_neg hnul]
  cases hstart : d.start path with
  | error e =>
    rw [hstart] at htravel
    cases htravel
  | ok t =>
    rw [hstart] at htravel
    change travelWithin d.root false linkLimit t (dropStays path) >>= _ = _
    change travelWithin d.root false linkLimit t (dropStays path) = _ at htravel
    rw [htravel]
    rfl

/-- A directory is found by every path that starts alike and says the same, if it is not longer. -/
theorem locate_of_said (h : d.locate path = .ok (here, x)) (hx : x.isDir = true) (hne : other ≠ [])
    (hnul : (0 : UInt8) ∉ other) (habs : Path.isAbsolute other = Path.isAbsolute path)
    (hsaid : said other = said path) (hlength : other.length ≤ path.length) :
    d.locate other = .ok (here, x) := by
  obtain ⟨hlimit, hgo⟩ := locate_eq_ok_iff.mp h
  obtain ⟨hne', hnul', -⟩ := ends_of_go_ok hgo
  apply locate_eq_ok_iff.mpr
  refine ⟨by omega, ?_⟩
  rw [go_eq hne' hnul', Path.walk_filter _ hx, ← map_ofPart_said] at hgo
  rw [go_eq hne hnul, Path.walk_filter _ hx, ← map_ofPart_said, startPlace, habs, hsaid]
  exact hgo

theorem makeDirs_of_locate (h : d.locate path = .ok (here, x)) (hx : x.isDir = true) :
    d.makeDirs path = .ok d := by
  obtain ⟨hlimit, hgo⟩ := locate_eq_ok_iff.mp h
  obtain ⟨hne, hnul, -⟩ := ends_of_go_ok hgo
  have hsub : (said path).Sublist (said path) := List.Sublist.refl _
  have hnormal : d.locate (normal path) = .ok (here, x) := by
    apply locate_of_said h hx (normal_ne_nil hne)
    all_goals rw [normal_eq_spelling]
    · exact nul_notMem_spelling hsub hnul
    · exact isAbsolute_spelling hsub
    · exact said_spelling hsub
    · exact length_spelling_le hsub
  have hisdir : d.isDirectory (normal path) = true := by
    unfold isDirectory
    rw [stat_of_locate hnormal]
    exact hx
  obtain ⟨c, above, heq, hup⟩ := Names.makeDirs_eq hne hlimit (normal_ne_nil hne)
  rw [hup, makeDirsUp, heq, makeDir_of_locate hnormal]
  exact if_pos hisdir

/-- What is no directory was found in one. -/
theorem locate_parent (h : d.locate path = .ok (place, x)) (hx : x.isDir = false) :
    ∃ parent, Path.parent? path = some parent ∧
      (parent = [] ∨ ∃ here y, d.locate parent = .ok (here, y) ∧ y.isDir = true) := by
  obtain ⟨hlimit, hgo⟩ := locate_eq_ok_iff.mp h
  obtain ⟨hne, hnul, -⟩ := ends_of_go_ok hgo
  obtain ⟨y, hy⟩ := exists_start_of_go hgo
  rw [go_eq hne hnul] at hgo
  have hlast : (hops path).getLast? ≠ some .stay := by
    intro hlast
    obtain ⟨hs, hhops⟩ := List.getLast?_eq_some_iff.mp hlast
    rw [hhops, Path.walk_concat_stay] at hgo
    simp [hx] at hgo
  have hsaid := said_ne_nil hlast
  refine ⟨_, parent?_eq_spelling hsaid, ?_⟩
  obtain ⟨init, part, hparts⟩ := (List.eq_nil_or_concat' (said path)).resolve_left hsaid
  have hsub : init.Sublist (said path) := by
    rw [hparts]
    exact List.sublist_append_left _ _
  rw [hparts, List.dropLast_concat]
  rw [(Trimmed.filter hlast).walk_eq, ← map_ofPart_said, hparts, List.map_append] at hgo
  obtain ⟨last, hsteps, -⟩ := steps_of_walk hy hgo
  obtain ⟨links, here, hfirst, hrest⟩ := hsteps.split
  -- The last part is looked up in a directory.
  have hdir : d.root.IsDirAt here := by
    rcases Relation.ReflTransGen.cases_head hrest with heq | ⟨v, hstep, -⟩
    · cases congrArg Way.hops heq
    · exact hstep.isDirAt
  obtain ⟨mode, es, hz⟩ := hdir
  have hwalk := hfirst.walk_eq.trans (walk_nil hz)
  by_cases hparent : spelling path init = []
  · exact .inl hparent
  · refine .inr ⟨here, .dir mode es, locate_eq_ok_iff.mpr ⟨?_, ?_⟩, rfl⟩
    · exact Nat.le_trans (length_spelling_le hsub) hlimit
    · rw [go_eq hparent (nul_notMem_spelling hsub hnul), Path.walk_filter _ rfl, ← map_ofPart_said,
        startPlace, isAbsolute_spelling hsub, said_spelling hsub]
      exact hwalk

theorem makeDirs_parent (h : d.locate path = .ok (place, x)) (hx : x.isDir = false) :
    ∃ parent, Path.parent? path = some parent ∧ d.makeDirs parent = .ok d := by
  obtain ⟨parent, hparent, hfound⟩ := locate_parent h hx
  refine ⟨parent, hparent, ?_⟩
  rcases hfound with rfl | ⟨here, y, hloc, hy⟩
  · rfl
  · exact makeDirs_of_locate hloc hy

end Disk

end Depot.Files
