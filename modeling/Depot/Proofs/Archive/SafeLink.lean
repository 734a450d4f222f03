import Depot.Archive.SafeLink
import Depot.Proofs.Files.Spelling
import Mathlib.Data.List.Infix

/-!
What a safe link is by the names of its path. The target, added to the directory that holds the link,
is followed on paper: a name is put on a stack, and `..` takes the last one off. The link is safe if
there is always one to take off, however much of the target is followed.
-/

namespace Depot.SafeLink

open Files Depot.Path

/-- The names that components leave, the last one first; nothing if a `..` finds no name to take off. -/
def settle? : List Bytes → List Component → Option (List Bytes)
  | stack, [] => some stack
  | _, .root :: cs => settle? [] cs
  | stack, .current :: cs => settle? stack cs
  | stack, .name n :: cs => settle? (n :: stack) cs
  | [], .parent :: _ => none
  | _ :: stack, .parent :: cs => settle? stack cs

section settle

variable {stack : List Bytes} {cs cs' : List Component} {depth : Nat}

theorem settle?_append (stack : List Bytes) (cs cs' : List Component) :
    settle? stack (cs ++ cs') = (settle? stack cs).bind fun left => settle? left cs' := by
  induction cs generalizing stack with
  | nil => rfl
  | cons c cs ih =>
    cases c with
    | root => exact ih []
    | current => exact ih stack
    | name n => exact ih (n :: stack)
    | parent =>
      cases stack with
      | nil => rfl
      | cons top stack => exact ih stack

/-- Following less of a path finds a name for each `..` if following all of it does. -/
theorem isSome_settle?_of_prefix (hpre : cs <+: cs') (h : (settle? stack cs').isSome) :
    (settle? stack cs).isSome := by
  obtain ⟨rest, rfl⟩ := hpre
  rw [settle?_append] at h
  cases hcs : settle? stack cs with
  | none => simp [hcs] at h
  | some left => rfl

theorem settle?_names (stack names : List Bytes) :
    settle? stack (names.map .name) = some (names.reverse ++ stack) := by
  induction names generalizing stack with
  | nil => rfl
  | cons n names ih =>
    rw [List.map_cons, settle?, ih]
    simp

theorem settle?_filter (stack : List Bytes) (cs : List Component) :
    settle? stack (cs.filter (· ≠ .current)) = settle? stack cs := by
  induction cs generalizing stack with
  | nil => rfl
  | cons c cs ih =>
    cases c with
    | root => exact ih []
    | current => exact ih stack
    | name n => exact ih (n :: stack)
    | parent =>
      cases stack with
      | nil => rfl
      | cons top stack => exact ih stack

/-- The depth that is counted is the height of the stack. -/
theorem stays_length_eq (h : .root ∉ cs) : stays stack.length cs = (settle? stack cs).isSome := by
  induction cs generalizing stack with
  | nil => rfl
  | cons c cs ih =>
    obtain ⟨hc, hrest⟩ := List.ne_and_not_mem_of_not_mem_cons h
    cases c with
    | root => exact absurd rfl hc
    | current => exact ih hrest
    | name n => exact @ih (n :: stack) hrest
    | parent =>
      cases stack with
      | nil => rfl
      | cons top stack => exact ih hrest

theorem root_notMem_of_stays (h : stays depth cs = true) : .root ∉ cs := by
  induction cs generalizing depth with
  | nil => exact List.not_mem_nil
  | cons c cs ih =>
    cases c with
    | root => cases h
    | current => simpa using ih h
    | name n => simpa using @ih (depth + 1) h
    | parent =>
      cases depth with
      | zero => cases h
      | succ depth => simpa using @ih depth h

end settle

section components

variable {path link dir : Bytes} {place : Place} {pre : List Component}

theorem components_of_relative (h : isAbsolute path = false) :
    components path =
      (if (splitAtSep slash path).head? = some [dot] then [.current] else []) ++
        (splitAtSep slash path).filterMap Component.ofPart? := by
  unfold components leading
  rw [h, if_neg Bool.false_ne_true]

theorem root_mem_components_iff : .root ∈ components path ↔ isAbsolute path = true := by
  constructor
  · intro hmem
    by_contra habs
    rw [components_of_relative (by simpa using habs), List.mem_append] at hmem
    rcases hmem with hmem | hmem
    · split_ifs at hmem <;> simp at hmem
    · obtain ⟨part, -, hpart⟩ := List.mem_filterMap.mp hmem
      exact (bytes_of_ofPart? hpart).2 rfl
  · intro habs
    unfold components leading
    rw [if_pos habs]
    exact List.mem_cons_self

theorem components_eq_nil_iff : components path = [] ↔ path = [] := by
  constructor
  · intro hnil
    obtain ⟨hstart, hparts⟩ := List.append_eq_nil_iff.mp hnil
    have habs : isAbsolute path = false := by
      by_contra habs
      have hmem := root_mem_components_iff.mpr (by simpa using habs)
      rw [hnil] at hmem
      cases hmem
    -- the first part of a relative path is empty only if the path is
    cases path with
    | nil => rfl
    | cons b path =>
      have hb : b ≠ slash := by
        rintro rfl
        simp [isAbsolute] at habs
      obtain ⟨first, parts, hsplit⟩ := List.exists_cons_of_ne_nil (splitAtSep_ne_nil slash path)
      have hwhole : splitAtSep slash (b :: path) = (b :: first) :: parts := by
        simp [splitAtSep, hb, hsplit]
      unfold leading at hstart
      rw [habs, hwhole] at hstart
      have hdot : b :: first ≠ [dot] := by
        intro hdot
        simp [hdot] at hstart
      rw [hwhole, List.filterMap_eq_nil_iff] at hparts
      have hnone := hparts _ List.mem_cons_self
      unfold Component.ofPart? at hnone
      rw [if_neg (by simp [hdot])] at hnone
      split_ifs at hnone
  · rintro rfl
    rfl

/-- A component that is written as one part of a path and read from it again, unless it is `.`. -/
def IsPlain (c : Component) : Prop :=
  slash ∉ c.bytes ∧ c.bytes ≠ [] ∧
    Component.ofPart? c.bytes = if c = .current then none else some c

theorem isPlain_of_mem_components (habs : isAbsolute path = false) {c : Component}
    (h : c ∈ components path) : IsPlain c := by
  rw [components_of_relative habs, List.mem_append] at h
  rcases h with h | h
  · split_ifs at h
    · obtain rfl := List.mem_singleton.mp h
      unfold IsPlain
      decide
    · cases h
  · obtain ⟨part, hmem, hpart⟩ := List.mem_filterMap.mp h
    obtain ⟨hbytes, -⟩ := bytes_of_ofPart? hpart
    have hne : part ≠ [] := by
      rintro rfl
      cases hpart
    have hcurrent : c ≠ .current := by
      rintro rfl
      subst hbytes
      cases hpart
    unfold IsPlain
    rw [hbytes, if_neg hcurrent]
    exact ⟨sep_notMem_of_mem_splitAtSep hmem, hne, hpart⟩

theorem filterMap_map_bytes {cs : List Component} (h : ∀ c ∈ cs, IsPlain c) :
    (cs.map Component.bytes).filterMap Component.ofPart? = cs.filter (· ≠ .current) := by
  induction cs with
  | nil => rfl
  | cons c cs ih =>
    obtain ⟨hc, hrest⟩ := List.forall_mem_cons.mp h
    obtain ⟨-, -, hpart⟩ := hc
    rw [List.map_cons]
    by_cases hcurrent : c = .current
    · rw [if_pos hcurrent] at hpart
      rw [List.filterMap_cons_none hpart, List.filter_cons_of_neg (by simp [hcurrent]), ih hrest]
    · rw [if_neg hcurrent] at hpart
      rw [List.filterMap_cons_some hpart, List.filter_cons_of_pos (by simp [hcurrent]), ih hrest]

/-- The path of plain components is relative and says them again. -/
theorem parts_ofComponents {cs : List Component} (h : ∀ c ∈ cs, IsPlain c) :
    isAbsolute (ofComponents cs) = false ∧
      (splitAtSep slash (ofComponents cs)).filterMap Component.ofPart? =
        cs.filter (· ≠ .current) := by
  have hroot : cs.head? ≠ some .root := by
    intro hhead
    obtain ⟨hslash, -⟩ := h .root (List.mem_of_mem_head? hhead)
    exact hslash List.mem_cons_self
  have hparts : ∀ part ∈ cs.map Component.bytes, part ≠ [] ∧ slash ∉ part := by
    rw [List.forall_mem_map]
    exact fun c hc => ⟨(h c hc).2.1, (h c hc).1⟩
  rw [ofComponents_of_head_ne hroot]
  refine ⟨isAbsolute_joinWith_parts hparts, ?_⟩
  by_cases hnil : cs = []
  · subst hnil
    rfl
  · rw [splitAtSep_joinWith (by simpa using hnil) fun part hp => (hparts part hp).2,
      filterMap_map_bytes h]

/-- Components that are added to a relative path are followed after those of the path. -/
theorem settle?_join {cs : List Component} (hdir : ∀ c ∈ cs, IsPlain c)
    (hpre : ∀ c ∈ pre, IsPlain c) :
    settle? [] (components (join (ofComponents cs) (ofComponents pre))) = settle? [] (cs ++ pre) := by
  obtain ⟨habs, hparts⟩ := parts_ofComponents hpre
  obtain ⟨habsDir, hpartsDir⟩ := parts_ofComponents hdir
  have hself : ∀ path : Bytes, isAbsolute path = false →
      (components path).filter (· ≠ .current) =
        ((splitAtSep slash path).filterMap Component.ofPart?).filter (· ≠ .current) := by
    intro path hpath
    rw [components_of_relative hpath, List.filter_append]
    split_ifs <;> rfl
  have hjoin : (components (join (ofComponents cs) (ofComponents pre))).filter (· ≠ .current) =
      (cs ++ pre).filter (· ≠ .current) := by
    by_cases hnil : ofComponents cs = []
    · have hcs : cs.filter (· ≠ .current) = [] := by
        rw [← hpartsDir, hnil]
        rfl
      have hbare : join [] (ofComponents pre) = ofComponents pre := by
        rw [join_of_relative habs]
        rfl
      rw [hnil, hbare, hself _ habs, hparts, List.filter_append, hcs]
      simp
    · rw [components_join hnil habs, List.filter_append, hself _ habsDir, hpartsDir, hparts,
        List.filter_append]
      simp
  rw [← settle?_filter, hjoin, settle?_filter]

end components

/-- A link is safe exactly if its target is relative, is not empty, and finds a name for each of its
`..`, wherever one stops to follow it from the directory of the link; it is not enough that the whole
target comes back. -/
theorem isSafe_iff_settles {link dir target : Bytes} {place : Place}
    (hlink : components link = place.map .name) (hdir : parent? link = some dir) :
    isSafe place target = true ↔
      target ≠ [] ∧ isAbsolute target = false ∧
        ∀ pre, pre <+: components target →
          (settle? [] (components (join dir (ofComponents pre)))).isSome := by
  have hplain : ∀ c ∈ place.map Component.name, IsPlain c := by
    rw [← hlink]
    refine fun c hc => isPlain_of_mem_components ?_ hc
    by_contra habs
    have hroot := root_mem_components_iff.mpr (by simpa using habs)
    simp [hlink] at hroot
  obtain rfl : ofComponents (place.dropLast.map .name) = dir := by
    unfold parent? at hdir
    rw [hlink] at hdir
    split at hdir
    · cases hdir
    · cases hdir
    · simpa using Option.some.inj hdir
  have hfollow : ∀ pre, isAbsolute target = false → pre <+: components target →
      settle? [] (components (join (ofComponents (place.dropLast.map .name)) (ofComponents pre))) =
        settle? place.dropLast.reverse pre := by
    intro pre habs hpre
    rw [settle?_join, settle?_append, settle?_names]
    · simp
    · intro c hc
      rw [List.map_dropLast] at hc
      exact hplain c (List.dropLast_subset _ hc)
    · exact fun c hc => isPlain_of_mem_components habs (hpre.subset hc)
  have hdepth : place.length - 1 = place.dropLast.reverse.length := by simp
  unfold isSafe
  rw [Bool.and_eq_true, Bool.not_eq_true', List.isEmpty_eq_false_iff, ne_eq, components_eq_nil_iff,
    hdepth]
  constructor
  · rintro ⟨hne, hstays⟩
    have hroot := root_notMem_of_stays hstays
    have habs : isAbsolute target = false := by
      simpa using mt root_mem_components_iff.mpr hroot
    refine ⟨hne, habs, fun pre hpre => ?_⟩
    rw [stays_length_eq hroot] at hstays
    rw [hfollow pre habs hpre]
    exact isSome_settle?_of_prefix hpre hstays
  · rintro ⟨hne, habs, hall⟩
    have hroot : .root ∉ components target := by simp [root_mem_components_iff, habs]
    have hwhole := hall _ (List.prefix_refl _)
    rw [hfollow _ habs (List.prefix_refl _)] at hwhole
    exact ⟨hne, (stays_length_eq hroot).trans hwhole⟩

/-- Followed from `d/l`, the target `../../d` climbs above the root before it comes back; `..//./f/`
does not. -/
theorem isSafe_iff_settles_climbing :
    ¬ (∀ pre, pre <+: components (Utf8.ofString "../../d") →
        (settle? [] (components (join [0x64] (ofComponents pre)))).isSome) ∧
      ∀ pre, pre <+: components (Utf8.ofString "..//./f/") →
        (settle? [] (components (join [0x64] (ofComponents pre)))).isSome := by
  have hiff := fun target : Bytes =>
    @isSafe_iff_settles [0x64, 0x2F, 0x6C] [0x64] target [[0x64], [0x6C]] (by decide) (by decide)
  constructor
  · intro hall
    have hsafe := (hiff (Utf8.ofString "../../d")).mpr ⟨by decide, by decide, hall⟩
    revert hsafe
    decide
  · exact ((hiff (Utf8.ofString "..//./f/")).mp (by decide)).2.2

end Depot.SafeLink
