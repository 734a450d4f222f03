import Depot.Proofs.Files.Resolution
import Depot.Proofs.Text.Parts

/-!
Spellings of paths. A path can be written in many ways that lead to the same: with more slashes, with
`.` on the way, or put together from pieces.
-/

namespace Depot.Files

theorem hops_append_slash (xs ys : Bytes) : hops (xs ++ Path.slash :: ys) = hops xs ++ hops ys := by
  simp [hops, splitAtSep_append_cons]

theorem IsName.ofPart {n : Name} (h : IsName n) : Hop.ofPart n = .name n := by
  rw [Hop.ofPart, if_neg (by rintro (h' | h'); exacts [h.1 h', h.2.1 h']), if_neg h.2.2.1]

theorem hops_joinWith_parts {parts : List Bytes} (hne : parts ≠ [])
    (h : ∀ part ∈ parts, Path.slash ∉ part) :
    hops (joinWith [Path.slash] parts) = parts.map Hop.ofPart := by
  rw [hops, splitAtSep_joinWith hne h]

theorem hops_joinWith {place : Place} (hne : place ≠ []) (h : ∀ n ∈ place, IsName n) :
    hops (joinWith [Path.slash] place) = place.map .name := by
  rw [hops_joinWith_parts hne fun n hn => (h n hn).2.2.2.1]
  exact List.map_congr_left fun n hn => (h n hn).ofPart

theorem isAbsolute_joinWith_parts {parts : List Bytes}
    (h : ∀ part ∈ parts, part ≠ [] ∧ Path.slash ∉ part) :
    Path.isAbsolute (joinWith [Path.slash] parts) = false := by
  cases parts with
  | nil => rfl
  | cons part parts =>
    obtain ⟨hne, hslash⟩ := h part List.mem_cons_self
    obtain ⟨b, bs, rfl⟩ := List.exists_cons_of_ne_nil hne
    have hb : b ≠ Path.slash := fun hb => hslash (hb ▸ List.mem_cons_self)
    cases parts <;> simp [joinWith, Path.isAbsolute, hb]

theorem isAbsolute_joinWith {place : Place} (h : ∀ n ∈ place, IsName n) :
    Path.isAbsolute (joinWith [Path.slash] place) = false :=
  isAbsolute_joinWith_parts fun n hn => ⟨(h n hn).1, (h n hn).2.2.2.1⟩

theorem IsName.isAbsolute {n : Name} (h : IsName n) : Path.isAbsolute n = false := by
  have hall : ∀ m ∈ [n], IsName m := by simpa using h
  exact isAbsolute_joinWith hall

theorem getLast?_cons_of_ne_nil {α : Type} {x : α} {xs : List α} (h : xs ≠ []) :
    (x :: xs).getLast? = xs.getLast? := by
  obtain ⟨y, hy⟩ := Option.ne_none_iff_exists'.mp (mt List.getLast?_eq_none_iff.mp h)
  rw [List.getLast?_cons, hy]
  rfl

/-- Some of the hops that stay are left out, but none at the end. -/
inductive Trimmed : List Hop → List Hop → Prop
  | nil : Trimmed [] []
  | keep (hop : Hop) {hs hs' : List Hop} (h : Trimmed hs hs') : Trimmed (hop :: hs) (hop :: hs')
  | drop {hs hs' : List Hop} (h : Trimmed hs hs') (hne : hs' ≠ []) : Trimmed (.stay :: hs) hs'

namespace Trimmed

theorem refl : (hs : List Hop) → Trimmed hs hs
  | [] => .nil
  | hop :: hs => .keep hop (refl hs)

theorem eq_nil_iff {hs hs' : List Hop} (h : Trimmed hs hs') : hs = [] ↔ hs' = [] := by
  cases h with
  | nil => rfl
  | keep hop h => simp
  | drop h hne => simp [hne]

theorem trans {a b c : List Hop} (h : Trimmed a b) (h' : Trimmed b c) : Trimmed a c := by
  induction h generalizing c with
  | nil => exact h'
  | keep hop _ ih =>
    cases h' with
    | keep _ h' => exact .keep hop (ih h')
    | drop h' hne => exact .drop (ih h') hne
  | drop _ hne ih => exact .drop (ih h') fun hc => hne (h'.eq_nil_iff.mpr hc)

theorem append {a b c d : List Hop} (h : Trimmed a b) (h' : Trimmed c d) :
    Trimmed (a ++ c) (b ++ d) := by
  induction h with
  | nil => exact h'
  | keep hop _ ih => exact .keep hop ih
  | drop _ hne ih => exact .drop ih (by simp [hne])

theorem getLast?_eq {a b : List Hop} (h : Trimmed a b) : b.getLast? = a.getLast? := by
  induction h with
  | nil => rfl
  | keep hop h ih => rw [List.getLast?_cons, List.getLast?_cons, ih]
  | @drop hs hs' h hne ih =>
    rw [ih, getLast?_cons_of_ne_nil fun h' => hne (h.eq_nil_iff.mp h')]

theorem filter {hs : List Hop} (h : hs.getLast? ≠ some .stay) :
    Trimmed hs (hs.filter (· ≠ .stay)) := by
  induction hs with
  | nil => exact .nil
  | cons hop hs ih =>
    by_cases hne : hs = []
    · subst hne
      have hhop : hop ≠ .stay := by simpa using h
      simpa [hhop] using refl [hop]
    · rw [getLast?_cons_of_ne_nil hne] at h
      have ht := ih h
      by_cases hhop : hop = .stay
      · subst hhop
        simpa using ht.drop fun h' => hne (ht.eq_nil_iff.mpr h')
      · simpa [hhop] using ht.keep hop

/-- Hops that stay before others lead to the same. -/
theorem filter_eq {hs hs' : List Hop} (h : Trimmed hs hs') :
    hs'.filter (· ≠ .stay) = hs.filter (· ≠ .stay) := by
  induction h with
  | nil => rfl
  | keep hop h ih => rw [List.filter_cons, List.filter_cons, ih]
  | drop h hne ih => simpa [List.filter_cons] using ih

theorem walk_eq {root : Node} {follow : Bool} {links : Nat} {hs hs' : List Hop}
    (h : Trimmed hs hs') (place : Place) :
    walk root follow links place hs = walk root follow links place hs' := by
  induction links using Nat.strongRecOn generalizing place hs hs' with
  | ind links ihlinks =>
  induction h generalizing place with
  | nil => rfl
  | @drop hs hs' h hne ih =>
    cases hx : root.get? place with
    | none => rw [walk_of_none hx, walk_of_none hx]
    | some x =>
      by_cases hdir : x.isDir = false
      · obtain ⟨hop, rest, rfl⟩ := List.exists_cons_of_ne_nil hne
        rw [walk_cons_of_not_dir hx hdir, walk_cons_of_not_dir hx hdir]
      · rw [walk_stay (.of_isDir hx hdir)]
        exact ih place
  | @keep hop hs hs' h ih =>
    cases hx : root.get? place with
    | none => rw [walk_of_none hx, walk_of_none hx]
    | some x =>
    by_cases hdir : x.isDir = false
    · rw [walk_cons_of_not_dir hx hdir, walk_cons_of_not_dir hx hdir]
    · have hd : root.IsDirAt place := .of_isDir hx hdir
      cases hop with
      | stay =>
        rw [walk_stay hd, walk_stay hd]
        exact ih place
      | up =>
        rw [walk_up hd, walk_up hd]
        exact ih _
      | name n =>
        have hjump : ∀ more < links, ∀ target p,
            walk root follow more p (hops target ++ hs) =
              walk root follow more p (hops target ++ hs') := fun more hmore target p =>
          ihlinks more hmore ((Trimmed.refl (hops target)).append h) p
        rw [walk_name hd, walk_name hd]
        simp only [h.eq_nil_iff, ih]
        cases root.get? (place ++ [n]) with
        | none => rfl
        | some child =>
          cases child with
          | link target =>
            cases links with
            | zero => rfl
            | succ links => simp only [hjump links (by omega)]
          | _ => rfl

end Trimmed

/-- Adding a relative path to another keeps the hops of both, but for one that stays. -/
theorem trimmed_hops_join {base path : Bytes} (hbase : base ≠ [])
    (hpath : Path.isAbsolute path = false) :
    Trimmed (hops base ++ hops path) (hops (Path.join base path)) := by
  rw [Path.join, hpath, if_neg (by simp)]
  split_ifs with h
  · obtain ⟨init, hinit⟩ := List.getLast?_eq_some_iff.mp (h.resolve_left hbase)
    subst hinit
    rw [List.append_assoc, List.singleton_append, hops_append_slash, hops_append_slash,
      List.append_assoc]
    exact (Trimmed.refl (hops init)).append (.drop (.refl _) (hops_ne_nil path))
  · rw [hops_append_slash]
    exact .refl _

theorem isAbsolute_join {base path : Bytes} (hbase : base ≠ [])
    (hpath : Path.isAbsolute path = false) :
    Path.isAbsolute (Path.join base path) = Path.isAbsolute base := by
  obtain ⟨b, bs, rfl⟩ := List.exists_cons_of_ne_nil hbase
  rw [Path.join, hpath, if_neg (by simp)]
  split_ifs <;> simp [Path.isAbsolute]

theorem join_ne_nil {base path : Bytes} (hbase : base ≠ []) : Path.join base path ≠ [] := by
  rw [Path.join]
  split_ifs with h
  · intro hp
    simp [hp, Path.isAbsolute] at h
  · simp [hbase]
  · simp

theorem nul_notMem_join {base path : Bytes} (hbase : (0 : UInt8) ∉ base)
    (hpath : (0 : UInt8) ∉ path) : (0 : UInt8) ∉ Path.join base path := by
  rw [Path.join]
  split_ifs
  · exact hpath
  · simp [hbase, hpath]
  · simp [hbase, hpath, Path.slash]

theorem nul_notMem_joinWith {parts : List Bytes} (h : ∀ part ∈ parts, (0 : UInt8) ∉ part) :
    (0 : UInt8) ∉ joinWith [Path.slash] parts := by
  intro h0
  rcases mem_joinWith h0 with h0 | ⟨part, hpart, h0⟩
  · revert h0
    decide
  · exact h part hpart h0

/-- The parts of a path that say something. -/
def said (path : Bytes) : List Bytes :=
  (splitAtSep Path.slash path).filter fun part => Hop.ofPart part ≠ .stay

theorem map_ofPart_said (path : Bytes) :
    (said path).map Hop.ofPart = (hops path).filter (· ≠ .stay) := by
  rw [said, hops, List.filter_map]
  rfl

theorem mem_said {path part : Bytes} (h : part ∈ said path) :
    part ≠ [] ∧ Path.slash ∉ part ∧ ∀ x ∈ part, x ∈ path := by
  obtain ⟨hmem, hstay⟩ := List.mem_filter.mp h
  refine ⟨?_, sep_notMem_of_mem_splitAtSep hmem, fun x hx => mem_of_mem_splitAtSep hmem hx⟩
  rintro rfl
  simp [Hop.ofPart] at hstay

theorem said_ne_nil {path : Bytes} (h : (hops path).getLast? ≠ some .stay) : said path ≠ [] := by
  intro hnil
  have hfilter := map_ofPart_said path
  rw [hnil] at hfilter
  exact hops_ne_nil path ((Trimmed.filter h).eq_nil_iff.mpr hfilter.symm)

theorem trimmed_hops_said {path : Bytes} (h : (hops path).getLast? ≠ some .stay) :
    Trimmed (hops path) (hops (joinWith [Path.slash] (said path))) := by
  rw [hops_joinWith_parts (said_ne_nil h) fun part hp => (mem_said hp).2.1, map_ofPart_said]
  exact .filter h

theorem joinWith_ne_nil {parts : List Bytes} (hne : parts ≠ []) (h : ∀ part ∈ parts, part ≠ []) :
    joinWith [Path.slash] parts ≠ [] := by
  obtain ⟨part, rest, rfl⟩ := List.exists_cons_of_ne_nil hne
  have hpart := h part List.mem_cons_self
  cases rest <;> simp [joinWith, hpart]

/-- A path without the parts that say nothing. -/
def normal (path : Bytes) : Bytes := Path.ofComponents (Path.components path)

theorem ofPart?_eq_none_iff {part : Bytes} :
    Path.Component.ofPart? part = none ↔ Hop.ofPart part = .stay := by
  simp only [Path.Component.ofPart?, Hop.ofPart]
  split_ifs <;> simp

theorem bytes_of_ofPart? {part : Bytes} {c : Path.Component}
    (h : Path.Component.ofPart? part = some c) : c.bytes = part ∧ c ≠ .root := by
  simp only [Path.Component.ofPart?] at h
  split_ifs at h with h1 h2
  · obtain rfl := Option.some.inj h
    exact ⟨h2.symm, by simp⟩
  · obtain rfl := Option.some.inj h
    exact ⟨rfl, by simp⟩

theorem map_bytes_filterMap (parts : List Bytes) :
    (parts.filterMap Path.Component.ofPart?).map Path.Component.bytes =
      parts.filter fun part => Hop.ofPart part ≠ .stay := by
  induction parts with
  | nil => rfl
  | cons part parts ih =>
    cases hc : Path.Component.ofPart? part with
    | none =>
      have hstay := ofPart?_eq_none_iff.mp hc
      rw [List.filterMap_cons_none hc, ih, List.filter_cons_of_neg (by simp [hstay])]
    | some c =>
      have hstay : Hop.ofPart part ≠ .stay := fun h => by simp [ofPart?_eq_none_iff.mpr h] at hc
      rw [List.filterMap_cons_some hc, List.map_cons, (bytes_of_ofPart? hc).1, ih,
        List.filter_cons_of_pos (by simp [hstay])]

theorem components_slash (path : Bytes) :
    Path.components (Path.slash :: path) =
      .root :: (splitAtSep Path.slash path).filterMap Path.Component.ofPart? := by
  simp [Path.components, Path.leading, Path.isAbsolute, splitAtSep, Path.Component.ofPart?]

theorem normal_slash (path : Bytes) :
    normal (Path.slash :: path) = Path.slash :: joinWith [Path.slash] (said path) := by
  rw [normal, components_slash, Path.ofComponents, map_bytes_filterMap]
  rfl

theorem ofComponents_of_head_ne {cs : List Path.Component} (h : cs.head? ≠ some .root) :
    Path.ofComponents cs = joinWith [Path.slash] (cs.map Path.Component.bytes) := by
  cases cs with
  | nil => rfl
  | cons c cs => cases c <;> first | rfl | exact absurd rfl h

theorem head?_filterMap_ne_root (parts : List Bytes) :
    (parts.filterMap Path.Component.ofPart?).head? ≠ some .root := by
  intro h
  obtain ⟨part, -, hpart⟩ := List.mem_filterMap.mp (List.mem_of_mem_head? h)
  exact (bytes_of_ofPart? hpart).2 rfl

theorem normal_of_not_absolute {path : Bytes} (h : Path.isAbsolute path = false) :
    normal path = joinWith [Path.slash]
      (if (splitAtSep Path.slash path).head? = some [Path.dot] then [Path.dot] :: said path
        else said path) := by
  rw [normal, Path.components, Path.leading, h]
  simp only [Bool.false_eq_true, if_false]
  split_ifs with hdot
  · rw [ofComponents_of_head_ne (by simp), List.map_append, map_bytes_filterMap]
    rfl
  · rw [List.nil_append, ofComponents_of_head_ne (head?_filterMap_ne_root _), map_bytes_filterMap]
    rfl

/-- `other` is another way to write `path`. -/
structure Respells (path other : Bytes) : Prop where
  ne_nil : other ≠ []
  nul : (0 : UInt8) ∉ path → (0 : UInt8) ∉ other
  absolute : Path.isAbsolute other = Path.isAbsolute path
  hops : Trimmed (hops path) (hops other)

theorem hops_slash (path : Bytes) : hops (Path.slash :: path) = .stay :: hops path :=
  hops_append_slash [] path

theorem respells_normal_of_absolute {path : Bytes}
    (h : (hops (Path.slash :: path)).getLast? ≠ some .stay) :
    Respells (Path.slash :: path) (normal (Path.slash :: path)) := by
  rw [hops_slash, getLast?_cons_of_ne_nil (hops_ne_nil path)] at h
  rw [normal_slash]
  refine ⟨by simp, fun hnul => ?_, by simp [Path.isAbsolute], ?_⟩
  · have hparts : (0 : UInt8) ∉ joinWith [Path.slash] (said path) :=
      nul_notMem_joinWith fun part hp h0 =>
        hnul (List.mem_cons_of_mem _ ((mem_said hp).2.2 _ h0))
    simpa [Path.slash] using hparts
  · rw [hops_slash, hops_slash]
    exact (trimmed_hops_said h).keep .stay

theorem respells_normal_of_not_absolute {path : Bytes} (habs : Path.isAbsolute path = false)
    (h : (hops path).getLast? ≠ some .stay) : Respells path (normal path) := by
  have hne := said_ne_nil h
  have hsaid : ∀ part ∈ said path, part ≠ [] ∧ Path.slash ∉ part := fun part hp =>
    ⟨(mem_said hp).1, (mem_said hp).2.1⟩
  have hnul : (0 : UInt8) ∉ path → ∀ part ∈ said path, (0 : UInt8) ∉ part := fun hnul part hp h0 =>
    hnul ((mem_said hp).2.2 _ h0)
  rw [normal_of_not_absolute habs]
  split_ifs with hdot
  · have hall : ∀ part ∈ [Path.dot] :: said path, part ≠ [] ∧ Path.slash ∉ part := by
      intro part hp
      rcases List.mem_cons.mp hp with rfl | hp
      · decide
      · exact hsaid part hp
    refine ⟨joinWith_ne_nil (by simp) fun part hp => (hall part hp).1, fun h0 => ?_, ?_, ?_⟩
    · refine nul_notMem_joinWith fun part hp => ?_
      rcases List.mem_cons.mp hp with rfl | hp
      · decide
      · exact hnul h0 part hp
    · rw [habs]
      exact isAbsolute_joinWith_parts hall
    · obtain ⟨rest, hrest⟩ := List.head?_eq_some_iff.mp hdot
      have hhops : hops path = .stay :: rest.map Hop.ofPart := by
        rw [hops, hrest]
        rfl
      have hkept : said path = rest.filter fun part => Hop.ofPart part ≠ .stay := by
        rw [said, hrest, List.filter_cons_of_neg (by decide)]
      have hmap : (said path).map Hop.ofPart = (rest.map Hop.ofPart).filter (· ≠ .stay) := by
        rw [hkept, List.filter_map]
        rfl
      have hrest' : rest.map Hop.ofPart ≠ [] := by
        intro hnil
        rw [hhops, hnil] at h
        exact h rfl
      rw [hhops, getLast?_cons_of_ne_nil hrest'] at h
      rw [hops_joinWith_parts (by simp) fun part hp => (hall part hp).2, List.map_cons, hmap, hhops]
      exact (Trimmed.filter h).keep .stay
  · exact ⟨joinWith_ne_nil hne fun part hp => (hsaid part hp).1,
      fun h0 => nul_notMem_joinWith (hnul h0), habs ▸ isAbsolute_joinWith_parts hsaid,
      trimmed_hops_said h⟩

theorem respells_normal {path : Bytes} (h : (hops path).getLast? ≠ some .stay) :
    Respells path (normal path) := by
  cases habs : Path.isAbsolute path with
  | false => exact respells_normal_of_not_absolute habs h
  | true =>
    obtain ⟨rest, rfl⟩ := List.head?_eq_some_iff.mp (of_decide_eq_true habs)
    exact respells_normal_of_absolute h

theorem normal_append_slash {path : Bytes} (h : path ≠ []) :
    normal (path ++ [Path.slash]) = normal path := by
  have hsplit : splitAtSep Path.slash (path ++ [Path.slash]) = splitAtSep Path.slash path ++ [[]] := by
    rw [splitAtSep_append_cons]
    rfl
  obtain ⟨b, bs, rfl⟩ := List.exists_cons_of_ne_nil h
  obtain ⟨part, parts, hparts⟩ :=
    List.exists_cons_of_ne_nil (splitAtSep_ne_nil Path.slash (b :: bs))
  rw [normal, normal, Path.components, Path.components, Path.leading, Path.leading, hsplit, hparts,
    List.filterMap_append]
  simp [Path.isAbsolute, Path.Component.ofPart?]

theorem normal_join_nil {path : Bytes} (h : path ≠ []) : normal (Path.join path []) = normal path := by
  rw [Path.join, if_neg (by decide)]
  split_ifs
  · rw [List.append_nil]
  · exact normal_append_slash h

theorem length_le_join_nil (path : Bytes) : path.length ≤ (Path.join path []).length := by
  rw [Path.join, if_neg (by decide)]
  split_ifs <;> rw [List.length_append] <;> exact Nat.le_add_right _ _

/-- `full` is a way to write `base` with names added to it. -/
structure Spells (base : Bytes) (names : Place) (full : Bytes) : Prop where
  ne_nil : full ≠ []
  nul : (0 : UInt8) ∉ full
  absolute : Path.isAbsolute full = Path.isAbsolute base
  hops : Trimmed (hops base ++ names.map .name) (hops full)

theorem spells_below {base : Bytes} (hbase : base ≠ []) (hnul : (0 : UInt8) ∉ base) {names : Place}
    (hne : names ≠ []) (h : ∀ n ∈ names, IsName n) : Spells base names (Path.below base names) where
  ne_nil := join_ne_nil hbase
  nul := nul_notMem_join hnul (nul_notMem_joinWith fun n hn => (h n hn).2.2.2.2)
  absolute := isAbsolute_join hbase (isAbsolute_joinWith h)
  hops := by
    rw [← hops_joinWith hne h]
    exact trimmed_hops_join hbase (isAbsolute_joinWith h)

theorem spells_join {base n : Bytes} (hbase : base ≠ []) (hnul : (0 : UInt8) ∉ base)
    (h : IsName n) : Spells base [n] (Path.join base n) :=
  spells_below hbase hnul (by simp) (by simpa using h)

namespace Spells

variable {base path other : Bytes} {names : Place}

theorem respell (h : Spells base names path) (h' : Respells path other) :
    Spells base names other where
  ne_nil := h'.ne_nil
  nul := h'.nul h.nul
  absolute := h'.absolute.trans h.absolute
  hops := h.hops.trans h'.hops

theorem append {names' : Place} (h : Spells base names path) (h' : Spells path names' other) :
    Spells base (names ++ names') other where
  ne_nil := h'.ne_nil
  nul := h'.nul
  absolute := h'.absolute.trans h.absolute
  hops := by
    rw [List.map_append, ← List.append_assoc]
    exact (h.hops.append (.refl _)).trans h'.hops

theorem getLast?_hops {n : Name} (h : Spells base (names ++ [n]) path) :
    (Files.hops path).getLast? = some (.name n) := by
  rw [h.hops.getLast?_eq]
  simp

theorem normal {n : Name} (h : Spells base (names ++ [n]) path) :
    Spells base (names ++ [n]) (normal path) :=
  h.respell (respells_normal (by simp [h.getLast?_hops]))

end Spells

/-- A path has a byte for each part, and one more between two parts. -/
theorem two_mul_length_hops_le (path : Bytes) :
    2 * ((hops path).filter (· ≠ .stay)).length ≤ path.length + 1 := by
  have hparts : ∀ parts : List Bytes, parts ≠ [] →
      2 * ((parts.map Hop.ofPart).filter (· ≠ .stay)).length ≤
        (joinWith [Path.slash] parts).length + 1 := by
    intro parts hne
    have hpart : ∀ part : Bytes,
        2 * ([Hop.ofPart part].filter (· ≠ .stay)).length ≤ part.length + 1 := by
      intro part
      cases part with
      | nil => simp [Hop.ofPart]
      | cons b bs =>
        have hle := List.length_filter_le (fun hop : Hop => decide (hop ≠ .stay)) [Hop.ofPart (b :: bs)]
        rw [List.length_singleton] at hle
        rw [List.length_cons]
        omega
    induction parts with
    | nil => exact absurd rfl hne
    | cons part parts ih =>
      cases parts with
      | nil => exact hpart part
      | cons next parts =>
        have hrest := ih (by simp)
        have hfirst := hpart part
        rw [joinWith_cons_cons, List.map_cons, ← List.singleton_append, List.filter_append,
          List.length_append, List.length_append, List.length_append, List.length_singleton]
        omega
  have hall := hparts (splitAtSep Path.slash path) (splitAtSep_ne_nil _ _)
  rwa [joinWith_splitAtSep] at hall

/-- A path is longer than the number of names that it adds to another. -/
theorem Spells.two_mul_length_le {base path : Bytes} {names : Place} (h : Spells base names path) :
    2 * names.length ≤ path.length + 1 := by
  have hnames : (names.map Hop.name).filter (· ≠ .stay) = names.map .name := by
    rw [List.filter_eq_self]
    simp
  have hle := two_mul_length_hops_le path
  rw [h.hops.filter_eq, List.filter_append, hnames, List.length_append, List.length_map] at hle
  omega
theorem leading_eq {path other : Bytes} (habs : Path.isAbsolute other = Path.isAbsolute path)
    {parts more more' : List Bytes} (hne : parts ≠ [])
    (hpath : splitAtSep Path.slash path = parts ++ more)
    (hother : splitAtSep Path.slash other = parts ++ more') :
    Path.leading other = Path.leading path := by
  obtain ⟨part, rest, rfl⟩ := List.exists_cons_of_ne_nil hne
  rw [Path.leading, Path.leading, habs, hpath, hother]
  rfl

theorem components_join {base path : Bytes} (hbase : base ≠ [])
    (hpath : Path.isAbsolute path = false) :
    Path.components (Path.join base path) =
      Path.components base ++ (splitAtSep Path.slash path).filterMap Path.Component.ofPart? := by
  have habs := isAbsolute_join hbase hpath
  rw [Path.join, hpath, if_neg (by simp)] at habs ⊢
  split_ifs at habs ⊢ with h
  · obtain ⟨init, rfl⟩ := List.getLast?_eq_some_iff.mp (h.resolve_left hbase)
    have hsplit : splitAtSep Path.slash (init ++ [Path.slash]) =
        splitAtSep Path.slash init ++ [[]] := splitAtSep_append_cons Path.slash init []
    have hsplit' : splitAtSep Path.slash (init ++ [Path.slash] ++ path) =
        splitAtSep Path.slash init ++ splitAtSep Path.slash path := by
      rw [List.append_assoc]
      exact splitAtSep_append_cons Path.slash init path
    rw [Path.components, Path.components,
      leading_eq habs (splitAtSep_ne_nil Path.slash init) hsplit hsplit', hsplit, hsplit']
    simp [Path.Component.ofPart?]
  · have hsplit := splitAtSep_append_cons Path.slash base path
    rw [Path.components, Path.components, leading_eq habs (splitAtSep_ne_nil Path.slash base)
      (List.append_nil _).symm hsplit, hsplit, List.filterMap_append, List.append_assoc]

theorem IsName.ofPart? {n : Name} (h : IsName n) : Path.Component.ofPart? n = some (.name n) := by
  rw [Path.Component.ofPart?, if_neg (by rintro (h' | h'); exacts [h.1 h', h.2.1 h']),
    if_neg h.2.2.1]

theorem components_below {base : Bytes} (hbase : base ≠ []) {names : Place} (hne : names ≠ [])
    (h : ∀ n ∈ names, IsName n) :
    Path.components (Path.below base names) =
      Path.components base ++ names.map .name := by
  rw [Path.below, components_join hbase (isAbsolute_joinWith h),
    splitAtSep_joinWith hne fun n hn => (h n hn).2.2.2.1]
  refine congrArg _ ?_
  clear hne
  induction names with
  | nil => rfl
  | cons n names ih =>
    rw [List.filterMap_cons_some (h n List.mem_cons_self).ofPart?,
      ih fun m hm => h m (List.mem_cons_of_mem _ hm)]
    rfl

theorem join_of_isAbsolute {base path : Bytes} (h : Path.isAbsolute path = true) :
    Path.join base path = path := if_pos h

theorem join_of_relative {base path : Bytes} (h : Path.isAbsolute path = false) :
    Path.join base path =
      (if base = [] ∨ base.getLast? = some Path.slash then base else base ++ [Path.slash]) ++
        path := by
  rw [Path.join, h, if_neg (by simp)]
  split_ifs <;> simp

/-- A relative path may be put together first. -/
theorem join_assoc {base path rest : Bytes} (hpath : path ≠ [])
    (hrest : Path.isAbsolute rest = false) :
    Path.join base (Path.join path rest) = Path.join (Path.join base path) rest := by
  have hlast : ∀ front : Bytes, front ++ path = [] ∨ (front ++ path).getLast? = some Path.slash ↔
      path = [] ∨ path.getLast? = some Path.slash := by
    intro front
    obtain ⟨x, hx⟩ := Option.ne_none_iff_exists'.mp (mt List.getLast?_eq_none_iff.mp hpath)
    simp [hpath, hx, List.getLast?_append]
  have hinner : ∀ front : Bytes, Path.join (front ++ path) rest = front ++ Path.join path rest := by
    intro front
    rw [join_of_relative hrest, join_of_relative hrest, if_congr (hlast front) rfl rfl]
    split_ifs <;> simp
  have habs := isAbsolute_join hpath hrest
  cases h : Path.isAbsolute path with
  | true => rw [join_of_isAbsolute (habs.trans h), join_of_isAbsolute h]
  | false => rw [join_of_relative (habs.trans h), join_of_relative h, hinner]

/-- `full` is `base` with names added to it, or `base` itself. -/
structure Extends (base : Bytes) (names : Place) (full : Bytes) : Prop where
  isName : ∀ n ∈ names, IsName n
  components : Path.components full = Path.components base ++ names.map .name
  spells : Spells base names full

theorem Extends.refl {base : Bytes} (hbase : base ≠ []) (hnul : (0 : UInt8) ∉ base) :
    Extends base [] base where
  isName := by simp
  components := by simp
  spells := ⟨hbase, hnul, rfl, by simpa using Trimmed.refl (hops base)⟩

theorem Extends.join {base path n : Bytes} {names : Place} (h : Extends base names path)
    (hn : IsName n) : Extends base (names ++ [n]) (Path.join path n) where
  isName := by
    intro m hm
    rcases List.mem_append.mp hm with hm | hm
    · exact h.isName m hm
    · obtain rfl := List.mem_singleton.mp hm
      exact hn
  components := by
    have hjoin : Path.components (Path.below path [n]) = Path.components path ++ [.name n] :=
      components_below h.spells.ne_nil (by simp) (by simpa using hn)
    rw [Path.below, joinWith] at hjoin
    rw [hjoin, h.components, List.append_assoc, List.map_append]
    rfl
  spells := h.spells.append (spells_join h.spells.ne_nil h.spells.nul hn)

end Depot.Files
