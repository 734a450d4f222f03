import Depot.Package.Target
import Depot.Proofs.Path.Relative
import Mathlib.Data.List.Induction

/-!
Normal forms of relative paths. A path is accepted by its parts, its normal form is made of its
names, and two paths have one normal form exactly if they have the same names; then they lead to the
same directories from everywhere.
-/

namespace Depot

namespace Path

open Files

/-- What a part of a path can be that names something. -/
structure IsPart (part : List Char) : Prop where
  ne_nil : part ≠ []
  ne_dot : part ≠ ['.']
  ne_up : part ≠ ['.', '.']
  slash : '/' ∉ part

/-- The root, or names with one slash between two. -/
def IsNormal (path : String) : Prop :=
  path = "." ∨ ∃ parts, parts ≠ [] ∧ (∀ part ∈ parts, IsPart part) ∧
    path.toList = joinWith ['/'] parts

/-- Nothing is wrong with a path that does not begin with a slash and has no NUL and no `..`. -/
theorem fault?_eq_none_iff {cs : List Char} :
    fault? cs = none ↔ ¬ ['/'] <+: cs ∧ '\x00' ∉ cs ∧ ['.', '.'] ∉ splitAtSep '/' cs := by
  have hhead : ['/'] <+: cs ↔ cs.head? = some '/' := by
    rw [List.singleton_prefix_iff_head?_eq_some]
  unfold fault?
  rw [hhead]
  split_ifs with h1 h2 h3
  · simp [h1]
  · simp [h2]
  · simpa using fun _ _ => h3
  · simpa [h1, h2] using h3

theorem normalize_eq_ok_iff {path normal : String} :
    normalize path = .ok normal ↔
      fault? path.toList = none ∧ normal = String.ofList (ofNames (names path.toList)) := by
  unfold normalize normalize?
  cases fault? path.toList with
  | some fault => simp
  | none => simp [eq_comm]

section names

variable {cs : List Char} {parts : List (List Char)}

theorem isPart_of_mem_names (h : fault? cs = none) {part : List Char} (hpart : part ∈ names cs) :
    IsPart part := by
  obtain ⟨-, -, hup⟩ := fault?_eq_none_iff.mp h
  obtain ⟨hmem, hsays⟩ := List.mem_filter.mp hpart
  obtain ⟨hne, hdot⟩ := of_decide_eq_true hsays
  refine ⟨hne, hdot, ?_, sep_notMem_of_mem_splitAtSep hmem⟩
  rintro rfl
  exact hup hmem

theorem names_ofNames (h : ∀ part ∈ parts, IsPart part) : names (ofNames parts) = parts := by
  cases parts with
  | nil => decide
  | cons part rest =>
    unfold names ofNames
    rw [splitAtSep_joinWith (by simp) fun p hp => (h p hp).slash, List.filter_eq_self]
    intro p hp
    simpa using ⟨(h p hp).ne_nil, (h p hp).ne_dot⟩

theorem ofNames_inj {parts' : List (List Char)} (h : ∀ part ∈ parts, IsPart part)
    (h' : ∀ part ∈ parts', IsPart part) : ofNames parts = ofNames parts' ↔ parts = parts' := by
  constructor
  · intro heq
    rw [← names_ofNames h, heq, names_ofNames h']
  · rintro rfl
    rfl

theorem fault?_ofNames (h : ∀ part ∈ parts, IsPart part) (hnul : ∀ part ∈ parts, '\x00' ∉ part) :
    fault? (ofNames parts) = none := by
  cases parts with
  | nil => decide
  | cons part rest =>
    obtain ⟨c, cs, hpart⟩ := List.exists_cons_of_ne_nil (h part List.mem_cons_self).ne_nil
    apply fault?_eq_none_iff.mpr
    refine ⟨fun hslash => ?_, fun h0 => ?_, fun hup => ?_⟩
    · have hc : c ≠ '/' := by
        rintro rfl
        exact (h part List.mem_cons_self).slash (by simp [hpart])
      subst hpart
      unfold ofNames at hslash
      cases rest <;> simp [joinWith, Ne.symm hc] at hslash
    · rcases mem_joinWith h0 with h0 | ⟨p, hp, h0⟩
      · simp at h0
      · exact hnul p hp h0
    · unfold ofNames at hup
      rw [splitAtSep_joinWith (by simp) fun p hp => (h p hp).slash] at hup
      exact (h _ hup).ne_up rfl

end names

theorem normalize_normal {path normal : String} (h : normalize path = .ok normal) :
    normalize normal = .ok normal := by
  obtain ⟨hfault, rfl⟩ := normalize_eq_ok_iff.mp h
  have hparts : ∀ part ∈ names path.toList, IsPart part := fun _ => isPart_of_mem_names hfault
  have hnul : ∀ part ∈ names path.toList, '\x00' ∉ part := by
    intro part hpart h0
    obtain ⟨-, hnul, -⟩ := fault?_eq_none_iff.mp hfault
    exact hnul (mem_of_mem_splitAtSep (List.mem_filter.mp hpart).1 h0)
  apply normalize_eq_ok_iff.mpr
  rw [String.toList_ofList, names_ofNames hparts]
  exact ⟨fault?_ofNames hparts hnul, rfl⟩

theorem isNormal_of_normalize {path normal : String} (h : normalize path = .ok normal) :
    IsNormal normal := by
  obtain ⟨hfault, rfl⟩ := normalize_eq_ok_iff.mp h
  cases hnames : names path.toList with
  | nil => exact .inl rfl
  | cons part parts =>
    right
    refine ⟨part :: parts, by simp, fun p hp => ?_, String.toList_ofList⟩
    rw [← hnames] at hp
    exact isPart_of_mem_names hfault hp

/-- Paths have one normal form exactly if they have the same names. -/
theorem normal_eq_normal_iff {path other normal normal' : String}
    (h : normalize path = .ok normal) (h' : normalize other = .ok normal') :
    normal = normal' ↔ names path.toList = names other.toList := by
  obtain ⟨hfault, rfl⟩ := normalize_eq_ok_iff.mp h
  obtain ⟨hfault', rfl⟩ := normalize_eq_ok_iff.mp h'
  rw [← ofNames_inj (fun _ => isPart_of_mem_names hfault) fun _ => isPart_of_mem_names hfault']
  exact String.ofList_inj

/-! ### Where a path leads -/

section walk

variable {root : Node} {links : Nat} {place here : Place} {x : Node}

/-- A hop that stays at the end of a way asks for a directory there. -/
theorem walk_concat_stay (hs : List Hop) :
    walk root true links place (hs ++ [.stay]) = .ok ⟨here, some x⟩ ↔
      walk root true links place hs = .ok ⟨here, some x⟩ ∧ x.isDir = true := by
  induction links using Nat.strongRecOn generalizing place hs with
  | ind links ihlinks =>
  induction hs generalizing place with
  | nil =>
    rw [List.nil_append]
    cases hy : root.get? place with
    | none => simp [walk_of_none hy]
    | some y =>
      rw [walk_nil hy]
      by_cases hdir : y.isDir = false
      · rw [walk_cons_of_not_dir hy hdir]
        simp only [reduceCtorEq, Except.ok.injEq, Found.mk.injEq, Option.some.injEq, false_iff]
        rintro ⟨⟨-, rfl⟩, hx⟩
        simp [hdir] at hx
      · rw [walk_stay (.of_isDir hy hdir), walk_nil hy]
        simp only [Except.ok.injEq, Found.mk.injEq, Option.some.injEq]
        constructor
        · rintro ⟨rfl, rfl⟩
          exact ⟨⟨rfl, rfl⟩, by simpa using hdir⟩
        · exact fun h => h.1
  | cons hop hs ih =>
    rw [List.cons_append]
    cases hy : root.get? place with
    | none => simp [walk_of_none hy]
    | some y =>
    by_cases hdir : y.isDir = false
    · simp [walk_cons_of_not_dir hy hdir]
    · have hd : root.IsDirAt place := .of_isDir hy hdir
      cases hop with
      | stay =>
        rw [walk_stay hd, walk_stay hd]
        exact ih
      | up =>
        rw [walk_up hd, walk_up hd]
        exact ih
      | name n =>
        rw [walk_name hd, walk_name hd]
        by_cases hlong : n.length > 255
        · simp [hlong]
        rw [if_neg hlong, if_neg hlong]
        cases hc : root.get? (place ++ [n]) with
        | none => by_cases hnil : hs = [] <;> simp [hnil]
        | some child =>
          cases child with
          | link target =>
            cases links with
            | zero => simp
            | succ links =>
              simpa [List.append_assoc] using
                ihlinks links (Nat.lt_succ_self links) (hops target ++ hs)
          | _ => exact ih

/-- Hops that stay make no difference to the directories that a way leads to. -/
theorem walk_filter (hs : List Hop) (hx : x.isDir = true) :
    walk root true links place hs = .ok ⟨here, some x⟩ ↔
      walk root true links place (hs.filter (· ≠ .stay)) = .ok ⟨here, some x⟩ := by
  induction hs using List.reverseRecOn with
  | nil => rfl
  | append_singleton hs hop ih =>
    by_cases hstay : hop = .stay
    · subst hstay
      rw [walk_concat_stay, ih]
      simp [hx]
    · have hlast : (hs ++ [hop]).getLast? ≠ some .stay := by simpa using hstay
      rw [(Trimmed.filter hlast).walk_eq]

end walk

theorem splitAtSep_encode (cs : List Char) :
    splitAtSep slash (Utf8.encode cs) = (splitAtSep '/' cs).map Utf8.encode := by
  have hparts : ∀ part ∈ (splitAtSep '/' cs).map Utf8.encode, slash ∉ part := by
    intro part hpart hslash
    obtain ⟨p, hp, rfl⟩ := List.mem_map.mp hpart
    exact sep_notMem_of_mem_splitAtSep hp (Utf8.mem_of_mem_encode (by decide) hslash)
  have hne : (splitAtSep '/' cs).map Utf8.encode ≠ [] := by
    simpa using splitAtSep_ne_nil '/' cs
  calc splitAtSep slash (Utf8.encode cs)
      = splitAtSep slash (Utf8.encode (joinWith ['/'] (splitAtSep '/' cs))) := by
        rw [joinWith_splitAtSep]
    _ = splitAtSep slash (joinWith [slash] ((splitAtSep '/' cs).map Utf8.encode)) := by
        rw [Utf8.encode_joinWith]
        rfl
    _ = (splitAtSep '/' cs).map Utf8.encode := splitAtSep_joinWith hne hparts

/-- Only parts that name nothing are no hops of their own. -/
theorem ofPart_encode_eq_stay_iff {part : List Char} :
    Hop.ofPart (Utf8.encode part) = .stay ↔ ¬ (part ≠ [] ∧ part ≠ ['.']) := by
  have hnil : Utf8.encode part = [] ↔ part = [] := ⟨Utf8.eq_nil_of_encode, by rintro rfl; rfl⟩
  have hdot : Utf8.encode part = [dot] ↔ part = ['.'] := by
    constructor
    · exact fun h => Utf8.encode_ascii_inj (forall_mem_of_all (by decide)) (h.trans rfl)
    · rintro rfl
      rfl
  unfold Hop.ofPart
  simp only [hnil, hdot]
  split_ifs with h1 h2
  · simpa [← or_iff_not_imp_left] using h1
  · simpa using h1
  · simpa using h1

/-- What a path says is what its names say. -/
theorem said_ofString (path : String) :
    said (Utf8.ofString path) = (names path.toList).map Utf8.encode := by
  unfold said names Utf8.ofString
  rw [splitAtSep_encode, List.filter_map]
  congr 1
  apply List.filter_congr
  intro part _
  rw [Function.comp_apply, decide_eq_decide, ne_eq, ofPart_encode_eq_stay_iff, not_not]

/-- In every directory the two paths add the same names to it, and lead to the same directories. -/
structure SamePlace (path other : String) : Prop where
  components : ∀ base ≠ [], components (join base (Utf8.ofString path)) =
    components (join base (Utf8.ofString other))
  leads : ∀ (d : Disk) (base : Bytes) (here : Place) (x : Node), base ≠ [] → x.isDir = true →
    (d.go true (join base (Utf8.ofString path)) = .ok ⟨here, some x⟩ ↔
      d.go true (join base (Utf8.ofString other)) = .ok ⟨here, some x⟩)

/-- Only the parts of a path that say something are components. -/
theorem filterMap_ofPart?_eq (path : Bytes) :
    (splitAtSep slash path).filterMap Component.ofPart? = (said path).filterMap Component.ofPart? := by
  unfold said
  rw [List.filterMap_filter]
  congr 1
  funext part
  by_cases hstay : Hop.ofPart part = .stay
  · simp [hstay, ofPart?_eq_none_iff.mpr hstay]
  · simp [hstay]

theorem isAbsolute_ofString {path : String} (h : fault? path.toList = none) :
    isAbsolute (Utf8.ofString path) = false := by
  obtain ⟨hslash, -⟩ := fault?_eq_none_iff.mp h
  unfold isAbsolute Utf8.ofString
  cases hcs : path.toList with
  | nil => rfl
  | cons c cs =>
    rw [decide_eq_false_iff_not]
    intro hhead
    apply hslash
    obtain ⟨rest, hrest⟩ := List.head?_eq_some_iff.mp hhead
    have hmem : slash ∈ Utf8.encode [c] := by
      obtain ⟨b, bs, hb⟩ := List.exists_cons_of_ne_nil (Utf8.encodeChar_ne_nil c)
      rw [Utf8.encode_cons, hb] at hrest ⊢
      obtain ⟨rfl, -⟩ := List.cons.inj hrest
      exact List.mem_cons_self
    have hc : '/' = c := List.mem_singleton.mp (Utf8.mem_of_mem_encode (by decide) hmem)
    rw [hcs, ← hc]
    simp

theorem nul_notMem_ofString {path : String} (h : fault? path.toList = none) :
    (0 : UInt8) ∉ Utf8.ofString path := by
  obtain ⟨-, hnul, -⟩ := fault?_eq_none_iff.mp h
  exact fun h0 => hnul (Utf8.mem_of_mem_encode (by decide) h0)

/-- The hops of a path below a directory, without those that stay. -/
theorem filter_hops_join {base : Bytes} {path : String} (hbase : base ≠ [])
    (h : fault? path.toList = none) :
    (hops (join base (Utf8.ofString path))).filter (· ≠ .stay) =
      (hops base).filter (· ≠ .stay) ++ ((names path.toList).map Utf8.encode).map Hop.ofPart := by
  rw [(trimmed_hops_join hbase (isAbsolute_ofString h)).filter_eq, List.filter_append,
    ← map_ofPart_said (Utf8.ofString path), said_ofString]

theorem samePlace_of_names {path other : String} (h : fault? path.toList = none)
    (h' : fault? other.toList = none) (hnames : names path.toList = names other.toList) :
    SamePlace path other := by
  constructor
  · intro base hbase
    rw [components_join hbase (isAbsolute_ofString h), components_join hbase (isAbsolute_ofString h'),
      filterMap_ofPart?_eq, filterMap_ofPart?_eq (Utf8.ofString other), said_ofString, said_ofString,
      hnames]
  · intro d base here x hbase hx
    by_cases hnul : (0 : UInt8) ∈ base
    · have hfail : ∀ rest : String, fault? rest.toList = none →
          d.go true (join base (Utf8.ofString rest)) ≠ .ok ⟨here, some x⟩ := by
        intro rest hrest hgo
        obtain ⟨-, h0, -⟩ := Disk.ends_of_go_ok hgo
        apply h0
        rw [join_of_relative (isAbsolute_ofString hrest)]
        split_ifs <;> simp [hnul]
      exact iff_of_false (hfail path h) (hfail other h')
    · rw [Disk.go_eq (join_ne_nil hbase) (nul_notMem_join hnul (nul_notMem_ofString h)),
        Disk.go_eq (join_ne_nil hbase) (nul_notMem_join hnul (nul_notMem_ofString h')),
        Disk.startPlace, Disk.startPlace, isAbsolute_join hbase (isAbsolute_ofString h),
        isAbsolute_join hbase (isAbsolute_ofString h'), walk_filter _ hx,
        filter_hops_join hbase h, hnames, ← filter_hops_join hbase h', ← walk_filter _ hx]

end Path

/-- The id of a package is the normal form of its path, and the root has none. -/
theorem TargetId.parse_of_normalize {path normal : String} (h : Path.normalize path = .ok normal) :
    parse path =
      if normal = "." then .error (.pathInvalid (Utf8.ofString path) "package id must not be empty")
      else .ok ⟨normal⟩ := by
  unfold parse
  rw [h]
  by_cases hroot : normal = "."
  · simp [bind, Except.bind, hroot, throw, throwThe, MonadExceptOf.throw]
  · simp [bind, Except.bind, pure, Except.pure, hroot]

end Depot
