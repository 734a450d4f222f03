import Depot.Files.Disk
import Mathlib.Tactic.Common

/-!
Trees as a file system holds them. Looking up a place splits along the place, and the list of
everything beneath a node holds each of its places once, in one order.
-/

namespace Depot.Files

theorem Name.lt_cases (a b : Name) : a < b ∨ a = b ∨ b < a := by
  by_cases h : a < b
  · exact .inl h
  by_cases h' : b < a
  · exact .inr (.inr h')
  · exact .inr (.inl (List.le_antisymm (List.not_lt.mp h') (List.not_lt.mp h)))

/-- What an entry of a directory can be called. -/
def IsName (n : Name) : Prop :=
  n ≠ [] ∧ n ≠ [Path.dot] ∧ n ≠ [Path.dot, Path.dot] ∧ Path.slash ∉ n ∧ (0 : UInt8) ∉ n

instance (n : Name) : Decidable (IsName n) := inferInstanceAs (Decidable (_ ∧ _))

/-- What a link can hold. -/
def IsTarget (target : Bytes) : Prop :=
  target ≠ [] ∧ (0 : UInt8) ∉ target ∧ target.length ≤ Disk.pathLimit

instance (target : Bytes) : Decidable (IsTarget target) := inferInstanceAs (Decidable (_ ∧ _))

namespace Entries

/-- The entries of a directory stand in the order of their names, each name once. -/
structure IsSound (es : Entries) : Prop where
  sorted : es.Pairwise fun a b => a.1 < b.1
  names : ∀ e ∈ es, IsName e.1

theorem IsSound.nil : IsSound [] := ⟨.nil, by simp⟩

/-- Only the names of entries count. -/
theorem IsSound.of_fst {es : Entries} (hsorted : (es.map (·.1)).Pairwise (· < ·))
    (hnames : ∀ n ∈ es.map (·.1), IsName n) : IsSound es :=
  ⟨List.pairwise_map.mp hsorted, fun _ he => hnames _ (List.mem_map_of_mem he)⟩

theorem IsSound.tail {e : Name × Node} {es : Entries} (h : IsSound (e :: es)) : IsSound es :=
  ⟨(List.pairwise_cons.mp h.sorted).2, fun x hx => h.names x (List.mem_cons_of_mem _ hx)⟩

theorem mem_of_find? {n : Name} {x : Node} {es : Entries} (h : find? n es = some x) :
    (n, x) ∈ es := by
  induction es with
  | nil => simp [find?] at h
  | cons e es ih =>
    simp only [find?] at h
    split at h
    · next hn =>
      have hx : e.2 = x := Option.some.inj h
      rw [hn, ← hx]
      exact List.mem_cons_self
    · exact List.mem_cons_of_mem _ (ih h)

theorem find?_map_snd (f : Node → Node) (n : Name) (es : Entries) :
    find? n (es.map fun e => (e.1, f e.2)) = (find? n es).map f := by
  induction es with
  | nil => rfl
  | cons e es ih =>
    obtain ⟨m, x⟩ := e
    by_cases hn : n = m
    · simp [find?, hn]
    · simpa [find?, hn] using ih

theorem find?_eq_none_of_forall_ne {n : Name} {es : Entries} (h : ∀ e ∈ es, n ≠ e.1) :
    find? n es = none := by
  cases hf : find? n es with
  | none => rfl
  | some x => exact absurd rfl (h _ (mem_of_find? hf))

theorem IsSound.find?_tail_self {n : Name} {x : Node} {es : Entries} (h : IsSound ((n, x) :: es)) :
    find? n es = none := by
  refine find?_eq_none_of_forall_ne fun e he hn => ?_
  have hlt : n < e.1 := (List.pairwise_cons.mp h.sorted).1 e he
  rw [← hn] at hlt
  exact List.lt_irrefl n hlt

theorem IsSound.find?_eq_none_of_lt {n : Name} {e : Name × Node} {es : Entries}
    (h : IsSound (e :: es)) (hn : n < e.1) : find? n (e :: es) = none := by
  refine find?_eq_none_of_forall_ne fun a ha hna => ?_
  rcases List.mem_cons.mp ha with rfl | ha
  · rw [← hna] at hn
    exact List.lt_irrefl n hn
  · have hlt : e.1 < a.1 := (List.pairwise_cons.mp h.sorted).1 a ha
    rw [← hna] at hlt
    exact List.lt_irrefl n (List.lt_trans hn hlt)

theorem IsSound.find?_of_mem {n : Name} {x : Node} {es : Entries} (h : IsSound es)
    (hm : (n, x) ∈ es) : find? n es = some x := by
  induction es with
  | nil => simp at hm
  | cons e es ih =>
    rcases List.mem_cons.mp hm with rfl | hm
    · simp [find?]
    · have hne : n ≠ e.1 := by
        intro hn
        have hlt : e.1 < n := (List.pairwise_cons.mp h.sorted).1 _ hm
        rw [← hn] at hlt
        exact List.lt_irrefl n hlt
      simp only [find?, if_neg hne]
      exact ih h.tail hm

theorem IsSound.of_names {es es' : Entries} (h : IsSound es) (hnames : es'.map (·.1) = es.map (·.1)) :
    IsSound es' := by
  constructor
  · rw [← List.pairwise_map (f := Prod.fst) (R := (· < ·)), hnames, List.pairwise_map]
    exact h.sorted
  · rw [← List.forall_mem_map (f := Prod.fst) (P := IsName), hnames, List.forall_mem_map]
    exact h.names

end Entries

namespace Node

/-- A statement about nodes and one about entries are proved together. -/
theorem induction {p : Node → Prop} {q : Entries → Prop}
    (file : ∀ mode data, p (.file mode data)) (link : ∀ target, p (.link target))
    (special : ∀ kind, p (.special kind)) (dir : ∀ mode es, q es → p (.dir mode es))
    (nil : q []) (cons : ∀ n node rest, p node → q rest → q ((n, node) :: rest)) (node : Node) :
    p node :=
  Node.rec (motive_1 := p) (motive_2 := q) (motive_3 := fun e => p e.2) file link special dir nil
    (fun e rest he hrest => cons e.1 e.2 rest he hrest) (fun _ _ h => h) node

/-- A statement about nodes holds of a directory if it holds of each of the entries. -/
theorem induction_entries {p : Node → Prop} (leaf : ∀ node : Node, node.isDir = false → p node)
    (dir : ∀ mode es, (∀ e ∈ es, p e.2) → p (.dir mode es)) (node : Node) : p node :=
  induction (q := fun es => ∀ e ∈ es, p e.2) (fun _ _ => leaf _ rfl) (fun _ => leaf _ rfl)
    (fun _ => leaf _ rfl) dir nofun
    (fun _ _ _ hnode hrest => List.forall_mem_cons.mpr ⟨hnode, hrest⟩) node

@[simp] theorem get?_nil (node : Node) : node.get? [] = some node := by
  cases node <;> rfl

@[simp] theorem get?_dir_cons (mode : Nat) (es : Entries) (n : Name) (place : Place) :
    (dir mode es).get? (n :: place) = (Entries.find? n es).bind fun child => child.get? place := rfl

theorem get?_append (node : Node) (place rest : Place) :
    node.get? (place ++ rest) = (node.get? place).bind fun x => x.get? rest := by
  induction place generalizing node with
  | nil => simp
  | cons n place ih =>
    cases node with
    | dir mode es =>
      simp only [List.cons_append, get?_dir_cons, Option.bind_assoc]
      cases Entries.find? n es with
      | none => rfl
      | some child => exact ih child
    | _ => rfl

/-- What is below a node is below a directory. -/
theorem isDir_of_get?_append {node x : Node} {place rest : Place} (hrest : rest ≠ [])
    (h : node.get? (place ++ rest) = some x) :
    ∃ mode es, node.get? place = some (.dir mode es) := by
  rw [get?_append] at h
  obtain ⟨y, hy, hx⟩ := Option.bind_eq_some_iff.mp h
  obtain ⟨n, more, rfl⟩ := List.exists_cons_of_ne_nil hrest
  cases y with
  | dir mode es => exact ⟨mode, es, hy⟩
  | _ => simp [get?] at hx

/-- All directories of a tree have sound entries, and all links have targets. -/
structure IsSound (node : Node) : Prop where
  entries : ∀ place mode es, node.get? place = some (.dir mode es) → Entries.IsSound es
  targets : ∀ place target, node.get? place = some (.link target) → IsTarget target

theorem IsSound.get? {node x : Node} {place : Place} (h : node.IsSound)
    (hx : node.get? place = some x) : x.IsSound where
  entries rest mode es he := h.entries (place ++ rest) mode es (by rw [get?_append, hx]; exact he)
  targets rest target ht := h.targets (place ++ rest) target (by rw [get?_append, hx]; exact ht)

theorem IsSound.entries_self {mode : Nat} {es : Entries} (h : (dir mode es).IsSound) :
    Entries.IsSound es := h.entries [] mode es (get?_nil _)

theorem IsSound.child {mode : Nat} {es : Entries} {n : Name} {x : Node} (h : (dir mode es).IsSound)
    (hx : (n, x) ∈ es) : x.IsSound := by
  refine h.get? (show (dir mode es).get? [n] = some x from ?_)
  rw [get?_dir_cons, h.entries_self.find?_of_mem hx]
  exact get?_nil x

theorem IsSound.tail {mode : Nat} {e : Name × Node} {es : Entries}
    (h : (dir mode (e :: es)).IsSound) : (dir mode es).IsSound := by
  have hes := h.entries_self
  have key : ∀ n place x, (dir mode es).get? (n :: place) = some x →
      (dir mode (e :: es)).get? (n :: place) = some x := by
    intro n place x hx
    obtain ⟨child, hc, hx⟩ := Option.bind_eq_some_iff.mp hx
    have hm : (n, child) ∈ e :: es := List.mem_cons_of_mem _ (Entries.mem_of_find? hc)
    rw [get?_dir_cons, hes.find?_of_mem hm]
    exact hx
  constructor
  · intro place m es' he
    cases place with
    | nil =>
      obtain ⟨-, rfl⟩ : mode = m ∧ es = es' := by simpa using he
      exact hes.tail
    | cons n place => exact h.entries _ m es' (key n place _ he)
  · intro place target ht
    cases place with
    | nil => simp at ht
    | cons n place => exact h.targets _ target (key n place _ ht)

/-- The names on the way to a node of a sound tree are names of entries. -/
theorem IsSound.names {node x : Node} {place : Place} (h : node.IsSound)
    (hx : node.get? place = some x) : ∀ n ∈ place, IsName n := by
  induction place generalizing node with
  | nil => simp
  | cons n place ih =>
    cases node with
    | dir mode es =>
      obtain ⟨child, hc, hx⟩ := Option.bind_eq_some_iff.mp hx
      have hm := Entries.mem_of_find? hc
      intro a ha
      rcases List.mem_cons.mp ha with rfl | ha
      · exact h.entries_self.names _ hm
      · exact ih (h.child hm) hx a ha
    | _ => simp [Node.get?] at hx

theorem mem_beneathAll_iff {es : Entries} {place : Place} {x : Node} :
    (place, x) ∈ beneathAll es ↔
      ∃ n node, (n, node) ∈ es ∧
        (place = [n] ∧ x = node ∨ ∃ rest, place = n :: rest ∧ (rest, x) ∈ node.beneath) := by
  induction es with
  | nil => simp [beneathAll]
  | cons e es ih =>
    obtain ⟨n, node⟩ := e
    simp only [beneathAll, List.cons_append, List.mem_cons, List.mem_append, List.mem_map, ih,
      Prod.mk.injEq, Prod.exists]
    constructor
    · rintro (⟨hp, hx⟩ | ⟨rest, y, hy, hp, rfl⟩ | ⟨m, z, hm, h⟩)
      · exact ⟨n, node, .inl ⟨rfl, rfl⟩, .inl ⟨hp, hx⟩⟩
      · exact ⟨n, node, .inl ⟨rfl, rfl⟩, .inr ⟨rest, hp.symm, hy⟩⟩
      · exact ⟨m, z, .inr hm, h⟩
    · rintro ⟨m, z, ⟨rfl, rfl⟩ | hm, h⟩
      · rcases h with ⟨hp, hx⟩ | ⟨rest, hp, hy⟩
        · exact .inl ⟨hp, hx⟩
        · exact .inr (.inl ⟨rest, x, hy, hp.symm, rfl⟩)
      · exact .inr (.inr ⟨m, z, hm, h⟩)

theorem ne_nil_of_mem_beneathAll {es : Entries} {e : Place × Node} (h : e ∈ beneathAll es) :
    e.1 ≠ [] := by
  obtain ⟨n, x, -, ⟨heq, -⟩ | ⟨rest, heq, -⟩⟩ := mem_beneathAll_iff.mp (show (e.1, e.2) ∈ _ from h)
  all_goals
    rw [heq]
    exact List.cons_ne_nil _ _

/-- Everything beneath a sound node is what its places lead to. -/
theorem mem_beneath_iff {node : Node} (h : node.IsSound) {place : Place} {x : Node} :
    (place, x) ∈ node.beneath ↔ place ≠ [] ∧ node.get? place = some x := by
  induction place generalizing node with
  | nil =>
    cases node with
    | dir mode es => simp [beneath, mem_beneathAll_iff]
    | _ => simp [beneath]
  | cons n place ih =>
    cases node with
    | dir mode es =>
      simp only [beneath, mem_beneathAll_iff, List.cons.injEq, get?_dir_cons, ne_eq, reduceCtorEq,
        not_false_eq_true, true_and]
      constructor
      · rintro ⟨m, child, hm, h'⟩
        have hf := h.entries_self.find?_of_mem hm
        rcases h' with ⟨⟨rfl, rfl⟩, rfl⟩ | ⟨rest, ⟨rfl, rfl⟩, hb⟩
        · simp [hf]
        · rw [hf]
          exact ((ih (h.child hm)).mp hb).2
      · intro hx
        obtain ⟨child, hc, hx⟩ := Option.bind_eq_some_iff.mp hx
        have hm := Entries.mem_of_find? hc
        refine ⟨n, child, hm, ?_⟩
        by_cases hp : place = []
        · subst hp
          exact .inl ⟨⟨rfl, rfl⟩, by simpa using hx.symm⟩
        · exact .inr ⟨place, ⟨rfl, rfl⟩, (ih (h.child hm)).mpr ⟨hp, hx⟩⟩
    | _ => simp [beneath, Node.get?]

/-- A node and everything beneath it. -/
def nodes (node : Node) : List (Place × Node) := ([], node) :: node.beneath

theorem nodes_dir (mode : Nat) (es : Entries) :
    (dir mode es).nodes = ([], dir mode es) :: beneathAll es :=
  rfl

theorem nodes_of_not_dir {node : Node} (h : node.isDir = false) : node.nodes = [([], node)] := by
  cases node with
  | dir => cases h
  | _ => rfl

theorem beneathAll_cons (e : Name × Node) (es : Entries) :
    beneathAll (e :: es) = e.2.nodes.map (fun x => (e.1 :: x.1, x.2)) ++ beneathAll es := by
  obtain ⟨n, node⟩ := e
  rw [beneathAll]
  rfl

theorem forall_beneathAll_cons {p : Place → Node → Prop} {e : Name × Node} {es : Entries} :
    (∀ x ∈ beneathAll (e :: es), p x.1 x.2) ↔
      (∀ x ∈ e.2.nodes, p (e.1 :: x.1) x.2) ∧ ∀ x ∈ beneathAll es, p x.1 x.2 := by
  rw [beneathAll_cons, List.forall_mem_append, List.forall_mem_map]

/-- The entries of a directory; all else has none. -/
def children : Node → Entries
  | dir _ es => es
  | _ => []

theorem beneath_eq (node : Node) : node.beneath = beneathAll node.children := by
  cases node <;> rfl

theorem get?_cons (node : Node) (n : Name) (place : Place) :
    node.get? (n :: place) = (Entries.find? n node.children).bind fun child => child.get? place := by
  cases node <;> rfl

theorem IsSound.children {node : Node} (h : node.IsSound) : (dir 0 node.children).IsSound := by
  have key : ∀ n place, (dir 0 node.children).get? (n :: place) = node.get? (n :: place) :=
    fun n place => (get?_cons node n place).symm
  have hes : Entries.IsSound node.children := by
    cases node with
    | dir mode es => exact h.entries_self
    | _ => exact .nil
  constructor
  · intro place mode es he
    cases place with
    | nil =>
      obtain ⟨-, rfl⟩ : 0 = mode ∧ node.children = es := by simpa using he
      exact hes
    | cons n place => exact h.entries _ mode es (by rw [← key]; exact he)
  · intro place target ht
    cases place with
    | nil => simp at ht
    | cons n place => exact h.targets _ target (by rw [← key]; exact ht)

theorem sorted_nodes {node : Node} (h : node.IsSound)
    (hsorted : node.beneath.Pairwise fun x y => x.1 < y.1) :
    node.nodes.Pairwise fun x y => x.1 < y.1 := by
  refine List.pairwise_cons.mpr ⟨fun x hx => ?_, hsorted⟩
  have hne : x.1 ≠ [] := ((mem_beneath_iff h).mp hx).1
  obtain ⟨n, rest, hplace⟩ := List.exists_cons_of_ne_nil hne
  rw [hplace]
  exact List.nil_lt_cons n rest

/-- Everything beneath a sound node stands in the order of its places. -/
theorem sorted_beneath {node : Node} (h : node.IsSound) :
    node.beneath.Pairwise fun x y => x.1 < y.1 := by
  revert h
  apply induction (p := fun node => node.IsSound → node.beneath.Pairwise fun x y => x.1 < y.1)
    (q := fun es => (dir 0 es).IsSound → (beneathAll es).Pairwise fun x y => x.1 < y.1)
  case file => exact fun _ _ _ => .nil
  case link | special => exact fun _ _ => .nil
  case nil => exact fun _ => .nil
  case dir => exact fun mode es ih hs => ih hs.children
  case cons =>
    intro n node rest hnode hrest hs
    have hn : node.IsSound := hs.child List.mem_cons_self
    have hlt : ∀ e ∈ rest, n < e.1 := (List.pairwise_cons.mp hs.entries_self.sorted).1
    rw [beneathAll_cons, List.pairwise_append, List.pairwise_map]
    refine ⟨?_, hrest hs.tail, fun x hx y hy => ?_⟩
    · exact (sorted_nodes hn (hnode hn)).imp List.cons_lt_cons_self.mpr
    · obtain ⟨z, -, rfl⟩ := List.mem_map.mp hx
      obtain ⟨m, child, hm, hy⟩ := mem_beneathAll_iff.mp hy
      have hfirst : ∃ place, y.1 = m :: place := by
        rcases hy with ⟨hy, -⟩ | ⟨place, hy, -⟩
        · exact ⟨[], hy⟩
        · exact ⟨place, hy⟩
      obtain ⟨place, hplace⟩ := hfirst
      rw [hplace]
      exact List.Lex.rel (hlt _ hm)

/-- The places beneath a node, and what is told of the nodes there. -/
def told {β : Type} (f : Node → β) (node : Node) : List (Place × β) :=
  node.beneath.map fun e => (e.1, f e.2)

/-- A sound tree that is told the same at each place is listed in the same order. -/
private def IsListedBy {β : Type} (f : Node → β) (a : Node) : Prop :=
  ∀ b : Node, a.IsSound → b.IsSound →
    (∀ place, (a.get? place).map f = (b.get? place).map f) → told f a = told f b

private theorem told_eq_of_children {β : Type} (f : Node → β) (es es' : Entries)
    (ih : ∀ e ∈ es, IsListedBy f e.2) (hs : (dir 0 es).IsSound) (hs' : (dir 0 es').IsSound)
    (h : ∀ n place, ((dir 0 es).get? (n :: place)).map f = ((dir 0 es').get? (n :: place)).map f) :
    (beneathAll es).map (fun e => (e.1, f e.2)) =
      (beneathAll es').map fun e => (e.1, f e.2) := by
  induction es generalizing es' with
  | nil =>
    cases es' with
    | nil => rfl
    | cons e' es' =>
      have := h e'.1 []
      simp [Entries.find?] at this
  | cons e es ihes =>
    obtain ⟨n, x⟩ := e
    cases es' with
    | nil =>
      have := h n []
      simp [Entries.find?] at this
    | cons e' es' =>
      obtain ⟨m, y⟩ := e'
      -- The smaller of two first names would be missing in the other directory.
      have hn : n = m := by
        rcases Name.lt_cases n m with hlt | heq | hgt
        · have := h n []
          rw [get?_dir_cons, get?_dir_cons, hs'.entries_self.find?_eq_none_of_lt hlt] at this
          simp [Entries.find?] at this
        · exact heq
        · have := h m []
          rw [get?_dir_cons, get?_dir_cons, hs.entries_self.find?_eq_none_of_lt hgt] at this
          simp [Entries.find?] at this
      subst hn
      have hxy : ∀ place, (x.get? place).map f = (y.get? place).map f := fun place => by
        simpa [Entries.find?] using h n place
      have hx : told f x = told f y := ih _ List.mem_cons_self y (hs.child List.mem_cons_self)
        (hs'.child List.mem_cons_self) hxy
      have htail := ihes es' (fun e he => ih e (List.mem_cons_of_mem _ he)) hs.tail hs'.tail
        fun k place => by
          by_cases hk : k = n
          · subst hk
            simp [hs.entries_self.find?_tail_self, hs'.entries_self.find?_tail_self]
          · simpa [Entries.find?, hk] using h k place
      have hbelow : x.beneath.map (fun e => (n :: e.1, f e.2)) =
          y.beneath.map fun e => (n :: e.1, f e.2) := by
        simpa [told, List.map_map, Function.comp_def] using
          congrArg (List.map fun e : Place × β => (n :: e.1, e.2)) hx
      have hroot : f x = f y := by simpa using hxy []
      simp [beneathAll, List.map_map, Function.comp_def, hbelow, htail, hroot]

private theorem isListedBy_of_children {β : Type} (f : Node → β) (a : Node)
    (ih : ∀ e ∈ a.children, IsListedBy f e.2) : IsListedBy f a := by
  intro b ha hb h
  rw [told, told, beneath_eq, beneath_eq]
  refine told_eq_of_children f _ _ ih ha.children hb.children fun n place => ?_
  simpa only [get?_cons, children] using h (n :: place)

/-- Sound trees in which each place is told the same are listed in the same order. -/
theorem told_eq {β : Type} (f : Node → β) {a b : Node} (ha : a.IsSound) (hb : b.IsSound)
    (h : ∀ place, (a.get? place).map f = (b.get? place).map f) : told f a = told f b := by
  suffices hl : IsListedBy f a from hl b ha hb h
  clear h ha hb
  induction a using induction_entries with
  | leaf a hdir =>
    refine isListedBy_of_children f a fun e he => ?_
    cases a with
    | dir => cases hdir
    | _ => cases he
  | dir mode es ih => exact isListedBy_of_children f _ ih

/-- The list of a sound tree tells of each of its places. -/
theorem get?_map_eq_of_told_eq {β : Type} {f : Node → β} {a b : Node} (ha : a.IsSound)
    (hb : b.IsSound) (h : told f a = told f b) {place : Place} (hp : place ≠ []) :
    (a.get? place).map f = (b.get? place).map f := by
  have key : ∀ {a b : Node}, a.IsSound → b.IsSound → told f a = told f b → ∀ x,
      a.get? place = some x → (b.get? place).map f = some (f x) := by
    intro a b ha hb h x hx
    have hm : (place, f x) ∈ told f b := by
      rw [← h]
      exact List.mem_map.mpr ⟨(place, x), (mem_beneath_iff ha).mpr ⟨hp, hx⟩, rfl⟩
    obtain ⟨e, he, heq⟩ := List.mem_map.mp hm
    obtain ⟨hplace, hmark⟩ := Prod.mk.inj heq
    rw [← hplace, ((mem_beneath_iff hb).mp he).2, ← hmark]
    rfl
  cases hx : a.get? place with
  | some x => exact (key ha hb h x hx).symm
  | none =>
    cases hy : b.get? place with
    | none => rfl
    | some y => simpa [hx] using key hb ha h.symm y hy

/-- A directory is sound if its entries are, each with its own tree. -/
theorem isSound_dir_iff {mode : Nat} {es : Entries} :
    (dir mode es).IsSound ↔ Entries.IsSound es ∧ ∀ e ∈ es, e.2.IsSound := by
  refine ⟨fun h => ⟨h.entries_self, fun e he => h.child he⟩, fun ⟨hes, hall⟩ => ?_⟩
  have key : ∀ n place x, (dir mode es).get? (n :: place) = some x →
      ∃ child : Node, child.IsSound ∧ child.get? place = some x := by
    intro n place x hx
    obtain ⟨child, hc, hx⟩ := Option.bind_eq_some_iff.mp hx
    exact ⟨child, hall _ (Entries.mem_of_find? hc), hx⟩
  constructor
  · intro place m es' he
    cases place with
    | nil =>
      obtain ⟨-, rfl⟩ : mode = m ∧ es = es' := by simpa using he
      exact hes
    | cons n place =>
      obtain ⟨child, hs, hx⟩ := key n place _ he
      exact hs.entries place m es' hx
  · intro place target ht
    cases place with
    | nil => simp at ht
    | cons n place =>
      obtain ⟨child, hs, hx⟩ := key n place _ ht
      exact hs.targets place target hx

theorem isSound_file (mode : Nat) (data : Bytes) : (file mode data).IsSound := by
  constructor
  · intro place m es h
    cases place <;> simp [Node.get?] at h
  · intro place target h
    cases place <;> simp [Node.get?] at h

theorem isSound_special (kind : Special) : (special kind).IsSound := by
  constructor
  · intro place m es h
    cases place <;> simp [Node.get?] at h
  · intro place target h
    cases place <;> simp [Node.get?] at h

theorem isSound_link_iff {target : Bytes} : (link target).IsSound ↔ IsTarget target := by
  refine ⟨fun h => h.targets [] target (get?_nil _), fun ht => ⟨?_, ?_⟩⟩
  · intro place m es h
    cases place <;> simp [Node.get?] at h
  · intro place target' h
    cases place with
    | nil =>
      obtain rfl : target = target' := by simpa using h
      exact ht
    | cons n place => simp [Node.get?] at h

/-- A tree at a place, with a directory for each of the names. -/
def buried (tree : Node) : Place → Node
  | [] => tree
  | n :: names => .dir 0o755 [(n, buried tree names)]

theorem get?_buried (tree : Node) (names : Place) : (buried tree names).get? names = some tree := by
  induction names with
  | nil => simp [buried]
  | cons n names ih =>
    rw [buried, get?_dir_cons]
    simpa [Entries.find?] using ih

theorem isSound_buried {tree : Node} {names : Place} (hnames : ∀ n ∈ names, IsName n)
    (hs : tree.IsSound) : (buried tree names).IsSound := by
  induction names with
  | nil => exact hs
  | cons n names ih =>
    refine isSound_dir_iff.mpr ⟨⟨List.pairwise_singleton _ _, ?_⟩, ?_⟩
    · simpa using hnames n List.mem_cons_self
    · simpa using ih fun m hm => hnames m (List.mem_cons_of_mem _ hm)

end Node

/-- As long as a name may be. -/
def longestName : Name := List.replicate 255 0x61

end Depot.Files
