import Depot.Proofs.Files.Tree

/-!
Changing what is at one place of a tree. Nothing changes at places that do not lie below it, but for
the entries of the directories on the way to it; so a place is looked at without its entries.
-/

namespace Depot.Files

namespace Entries

/-- Sound entries are the same if each name stands for the same. -/
theorem IsSound.eq_of_find?_eq {es es' : Entries} (h : IsSound es) (h' : IsSound es')
    (hfind : ∀ n, find? n es = find? n es') : es = es' := by
  induction es generalizing es' with
  | nil =>
    cases es' with
    | nil => rfl
    | cons e' es' => simpa [find?] using hfind e'.1
  | cons e es ih =>
    obtain ⟨n, x⟩ := e
    cases es' with
    | nil => simpa [find?] using hfind n
    | cons e' es' =>
      obtain ⟨m, y⟩ := e'
      have hnm : n = m := by
        rcases Name.lt_cases n m with hlt | heq | hgt
        · have hn := hfind n
          rw [h'.find?_eq_none_of_lt hlt] at hn
          simp [find?] at hn
        · exact heq
        · have hm := hfind m
          rw [h.find?_eq_none_of_lt hgt] at hm
          simp [find?] at hm
      subst hnm
      obtain rfl : x = y := by simpa [find?] using hfind n
      refine congrArg _ (ih h.tail h'.tail fun k => ?_)
      by_cases hk : k = n
      · subst hk
        rw [h.find?_tail_self, h'.find?_tail_self]
      · simpa [find?, hk] using hfind k

theorem IsSound.find?_erase_self {es : Entries} (h : IsSound es) (n : Name) :
    find? n (erase n es) = none := by
  induction es with
  | nil => rfl
  | cons e es ih =>
    obtain ⟨m, x⟩ := e
    simp only [erase]
    split_ifs with hn
    · subst hn
      exact h.find?_tail_self
    · simp only [find?, if_neg hn]
      exact ih h.tail

theorem IsSound.find?_set_self {es : Entries} (h : IsSound es) (n : Name) (node? : Option Node) :
    find? n (set n node? es) = node? := by
  cases node? with
  | none => exact h.find?_erase_self n
  | some node => exact find?_insert_self n node es

theorem erase_of_find?_eq_none {n : Name} {es : Entries} (h : find? n es = none) :
    erase n es = es := by
  induction es with
  | nil => rfl
  | cons e es ih => grind [erase, find?]

/-- Removing what was put in leaves what removing what it took the place of leaves. -/
theorem IsSound.erase_insert {es : Entries} (h : IsSound es) (n : Name) (node : Node) :
    erase n (insert n node es) = erase n es := by
  induction es with
  | nil => simp [insert, erase]
  | cons e es ih =>
    obtain ⟨m, x⟩ := e
    simp only [insert]
    split_ifs with hlt heq
    · rw [erase, if_pos rfl, erase_of_find?_eq_none (h.find?_eq_none_of_lt hlt)]
    · rw [erase, erase, if_pos rfl, if_pos heq]
    · rw [erase, erase, if_neg heq, if_neg heq, ih h.tail]

theorem mem_insert {n : Name} {node : Node} {e : Name × Node} {es : Entries}
    (h : e ∈ insert n node es) : e = (n, node) ∨ e ∈ es := by
  induction es with
  | nil => simpa [insert] using h
  | cons a es ih =>
    simp only [insert] at h
    split_ifs at h
    · exact List.mem_cons.mp h
    · rcases List.mem_cons.mp h with h | h
      · exact .inl h
      · exact .inr (List.mem_cons_of_mem _ h)
    · rcases List.mem_cons.mp h with rfl | h
      · exact .inr List.mem_cons_self
      · exact (ih h).imp_right (List.mem_cons_of_mem _)

theorem mem_of_mem_erase {n : Name} {e : Name × Node} {es : Entries} (h : e ∈ erase n es) :
    e ∈ es := by
  induction es with
  | nil => exact h
  | cons a es ih =>
    simp only [erase] at h
    split_ifs at h
    · exact List.mem_cons_of_mem _ h
    · rcases List.mem_cons.mp h with rfl | h
      · exact List.mem_cons_self
      · exact List.mem_cons_of_mem _ (ih h)

theorem mem_set {n : Name} {node? : Option Node} {e : Name × Node} {es : Entries}
    (h : e ∈ set n node? es) : (∃ node, node? = some node ∧ e = (n, node)) ∨ e ∈ es := by
  cases node? with
  | none => exact .inr (mem_of_mem_erase h)
  | some node =>
    rcases mem_insert h with h | h
    · exact .inl ⟨node, rfl, h⟩
    · exact .inr h

theorem IsSound.insert {es : Entries} (h : IsSound es) {n : Name} (hn : IsName n) (node : Node) :
    IsSound (insert n node es) := by
  refine ⟨?_, fun e he => ?_⟩
  · induction es with
    | nil => exact List.pairwise_singleton _ _
    | cons a es ih =>
      obtain ⟨m, x⟩ := a
      obtain ⟨hhead, htail⟩ := List.pairwise_cons.mp h.sorted
      simp only [Entries.insert]
      split_ifs with hlt heq
      · refine List.pairwise_cons.mpr ⟨fun e he => ?_, h.sorted⟩
        rcases List.mem_cons.mp he with rfl | he
        · exact hlt
        · exact List.lt_trans hlt (hhead e he)
      · subst heq
        exact List.pairwise_cons.mpr ⟨hhead, htail⟩
      · refine List.pairwise_cons.mpr ⟨fun e he => ?_, ih h.tail⟩
        rcases mem_insert he with rfl | he
        · rcases Name.lt_cases n m with h' | h' | h'
          · exact absurd h' hlt
          · exact absurd h' heq
          · exact h'
        · exact hhead e he
  · rcases mem_insert he with rfl | he
    · exact hn
    · exact h.names e he

theorem IsSound.erase {es : Entries} (h : IsSound es) (n : Name) : IsSound (erase n es) := by
  refine ⟨?_, fun e he => h.names e (mem_of_mem_erase he)⟩
  induction es with
  | nil => exact .nil
  | cons a es ih =>
    obtain ⟨hhead, htail⟩ := List.pairwise_cons.mp h.sorted
    simp only [Entries.erase]
    split_ifs
    · exact htail
    · exact List.pairwise_cons.mpr ⟨fun e he => hhead e (mem_of_mem_erase he), ih h.tail⟩

theorem IsSound.set {es : Entries} (h : IsSound es) {n : Name} (hn : IsName n)
    (node? : Option Node) : IsSound (set n node? es) := by
  cases node? with
  | none => exact h.erase n
  | some node => exact h.insert hn node

end Entries

namespace Node

/-- A node without the entries of a directory. -/
def face : Node → Node
  | dir mode _ => dir mode []
  | node => node

/-- What is at a place, without the entries of a directory. -/
def look (root : Node) (place : Place) : Option Node := (root.get? place).map face

theorem isDir_face (node : Node) : node.face.isDir = node.isDir := by cases node <;> rfl

theorem look_eq_none_iff {root : Node} {place : Place} :
    root.look place = none ↔ root.get? place = none := by simp [look]

theorem look_eq_dir_iff {root : Node} {place : Place} {mode : Nat} {es : Entries} :
    root.look place = some (dir mode es) ↔
      es = [] ∧ ∃ es, root.get? place = some (dir mode es) := by
  simp only [look, Option.map_eq_some_iff]
  constructor
  · rintro ⟨x, hx, hf⟩
    cases x with
    | dir m es' =>
      obtain ⟨rfl, rfl⟩ := Node.dir.inj hf
      exact ⟨rfl, es', hx⟩
    | _ => simp [face] at hf
  · rintro ⟨rfl, es, hx⟩
    exact ⟨_, hx, rfl⟩

theorem look_eq_some_iff {root x : Node} {place : Place} (h : x.isDir = false) :
    root.look place = some x ↔ root.get? place = some x := by
  simp only [look, Option.map_eq_some_iff]
  constructor
  · rintro ⟨y, hy, rfl⟩
    cases y with
    | dir m es => simp [face, isDir] at h
    | _ => exact hy
  · intro hx
    refine ⟨x, hx, ?_⟩
    cases x with
    | dir m es => simp [isDir] at h
    | _ => rfl

/-- There is a directory at a place. -/
def IsDirAt (root : Node) (place : Place) : Prop := ∃ mode es, root.get? place = some (dir mode es)

theorem isDirAt_iff_look {root : Node} {place : Place} :
    root.IsDirAt place ↔ ∃ mode, root.look place = some (dir mode []) := by
  constructor
  · rintro ⟨mode, es, h⟩
    exact ⟨mode, look_eq_dir_iff.mpr ⟨rfl, es, h⟩⟩
  · rintro ⟨mode, h⟩
    obtain ⟨-, es, h⟩ := look_eq_dir_iff.mp h
    exact ⟨mode, es, h⟩

theorem isDirAt_of_look_eq {a b : Node} {place place' : Place} (h : a.look place = b.look place') :
    a.IsDirAt place ↔ b.IsDirAt place' := by
  rw [isDirAt_iff_look, isDirAt_iff_look, h]

theorem IsDirAt.of_isDir {root x : Node} {place : Place} (hx : root.get? place = some x)
    (h : ¬ x.isDir = false) : root.IsDirAt place := by
  cases x with
  | dir mode es => exact ⟨mode, es, hx⟩
  | _ => exact absurd rfl h

theorem IsDirAt.of_append {root : Node} {place rest : Place} (hrest : rest ≠ []) {x : Node}
    (h : root.get? (place ++ rest) = some x) : root.IsDirAt place :=
  isDir_of_get?_append hrest h

theorem IsDirAt.of_prefix {root : Node} {p q : Place} (h : root.IsDirAt q) (hp : p <+: q) :
    root.IsDirAt p := by
  obtain ⟨rest, rfl⟩ := hp
  by_cases hrest : rest = []
  · simpa [hrest] using h
  · obtain ⟨mode, es, hx⟩ := h
    exact .of_append hrest hx

theorem look_dir_cons {mode : Nat} {es : Entries} {n : Name} {place : Place} :
    (dir mode es).look (n :: place) = (Entries.find? n es).bind fun child => child.look place := by
  rw [look, get?_dir_cons]
  cases Entries.find? n es <;> rfl

/-- Sound trees that look the same everywhere are the same. -/
theorem eq_of_look_eq {a b : Node} (ha : a.IsSound) (hb : b.IsSound)
    (h : ∀ place, a.look place = b.look place) : a = b := by
  induction a using induction_entries generalizing b with
  | leaf a hdir =>
    have hself := h []
    rw [(look_eq_some_iff hdir).mpr (get?_nil a)] at hself
    have hget := (look_eq_some_iff hdir).mp hself.symm
    rw [get?_nil] at hget
    exact (Option.some.inj hget).symm
  | dir mode es ih =>
    have hself : b.look [] = some (dir mode []) := by
      rw [← h []]
      rfl
    obtain ⟨-, es', hes'⟩ := look_eq_dir_iff.mp hself
    rw [get?_nil] at hes'
    obtain rfl := Option.some.inj hes'
    refine congrArg (dir mode) (ha.entries_self.eq_of_find?_eq hb.entries_self fun n => ?_)
    have hn : ∀ place, ((Entries.find? n es).bind fun child => child.look place) =
        (Entries.find? n es').bind fun child => child.look place := fun place => by
      simpa only [look_dir_cons] using h (n :: place)
    cases hx : Entries.find? n es with
    | none =>
      have := hn []
      rw [hx] at this
      cases hy : Entries.find? n es' with
      | none => rfl
      | some y => simp [hy, look] at this
    | some x =>
      have := hn []
      rw [hx] at this
      cases hy : Entries.find? n es' with
      | none => simp [hy, look] at this
      | some y =>
        have hxmem := Entries.mem_of_find? hx
        refine congrArg some (ih _ hxmem (ha.child hxmem) (hb.child (Entries.mem_of_find? hy))
          fun place => ?_)
        simpa [hx, hy] using hn place

/-- What is at a place is the same if it looks the same there and everywhere below. -/
theorem get?_eq_of_look_eq {a b : Node} (ha : a.IsSound) (hb : b.IsSound) {place : Place}
    (h : ∀ rest, a.look (place ++ rest) = b.look (place ++ rest)) : a.get? place = b.get? place := by
  have hlook : ∀ {c x : Node}, c.get? place = some x → ∀ rest, x.look rest = c.look (place ++ rest) := by
    intro c x hx rest
    rw [look, look, get?_append, hx]
    rfl
  have hself := h []
  rw [List.append_nil] at hself
  cases hx : a.get? place with
  | none =>
    rw [look_eq_none_iff.mpr hx] at hself
    exact (look_eq_none_iff.mp hself.symm).symm
  | some x =>
    cases hy : b.get? place with
    | none =>
      rw [look_eq_none_iff.mpr hy, look_eq_none_iff, hx] at hself
      cases hself
    | some y =>
      refine congrArg some (eq_of_look_eq (ha.get? hx) (hb.get? hy) fun rest => ?_)
      rw [hlook hx, hlook hy, h]

theorem get?_alter_cons (f : Option Node → Option Node) {mode : Nat} {es : Entries}
    (h : (dir mode es).IsSound) (n k : Name) (place other : Place) :
    (alter f (n :: place) (some (dir mode es))).bind (·.get? (k :: other)) =
      if k = n then (alter f place (Entries.find? n es)).bind (·.get? other)
      else (dir mode es).get? (k :: other) := by
  simp only [alter, Option.bind_some, get?_dir_cons]
  split_ifs with hk
  · rw [hk, h.entries_self.find?_set_self]
  · rw [Entries.find?_set_ne hk]

/-- The place itself becomes what the change makes of it, if the directory above it exists. -/
theorem get?_alter_self (f : Option Node → Option Node) {place : Place} {node? : Option Node}
    (hs : ∀ node ∈ node?, node.IsSound)
    (h : place = [] ∨ ∃ node ∈ node?, node.IsDirAt place.dropLast) :
    (alter f place node?).bind (·.get? place) = f (node?.bind (·.get? place)) := by
  induction place generalizing node? with
  | nil => cases node? <;> simp [alter]
  | cons n place ih =>
    obtain ⟨node, hnode, mode, es, hdir⟩ := h.resolve_left (by simp)
    obtain rfl : node? = some node := hnode
    have hchild : ∀ m es', node = dir m es' → place ≠ [] →
        ∃ child ∈ Entries.find? n es', child.IsDirAt place.dropLast := by
      rintro m es' rfl hp
      rw [List.dropLast_cons_of_ne_nil hp, get?_dir_cons] at hdir
      obtain ⟨child, hc, hx⟩ := Option.bind_eq_some_iff.mp hdir
      exact ⟨child, hc, mode, es, hx⟩
    cases node with
    | dir m es' =>
      have hsound := hs _ rfl
      rw [get?_alter_cons f hsound, if_pos rfl]
      refine ih (fun child hc => hsound.child (Entries.mem_of_find? hc)) ?_
      by_cases hp : place = []
      · exact .inl hp
      · exact .inr (hchild m es' rfl hp)
    | _ =>
      cases place with
      | nil => simp at hdir
      | cons k place => simp [Node.get?] at hdir

/-- What is above a changed place changes below it only. -/
theorem get?_alter_append (f : Option Node → Option Node) {place rest : Place} {node x : Node}
    (hs : node.IsSound) (h : node.get? place = some x) :
    (alter f (place ++ rest) (some node)).bind (·.get? place) = alter f rest (some x) := by
  induction place generalizing node with
  | nil =>
    obtain rfl := Option.some.inj ((get?_nil node).symm.trans h)
    rw [List.nil_append]
    cases alter f rest (some node) with
    | none => rfl
    | some y => exact get?_nil y
  | cons n place ih =>
    obtain ⟨mode, es, rfl⟩ : ∃ mode es, node = .dir mode es := by
      cases node with
      | dir mode es => exact ⟨mode, es, rfl⟩
      | _ => cases h
    rw [get?_dir_cons] at h
    obtain ⟨child, hchild, hx⟩ := Option.bind_eq_some_iff.mp h
    have hsc : child.IsSound := hs.child (Entries.mem_of_find? hchild)
    rw [List.cons_append, alter, Option.bind_some, get?_dir_cons, hs.entries_self.find?_set_self,
      hchild]
    exact ih hsc hx

/-- Nothing changes at places that are neither above nor below. -/
theorem get?_alter_of_disjoint (f : Option Node → Option Node) {place other : Place}
    {node? : Option Node} (hs : ∀ node ∈ node?, node.IsSound) (h : ¬ place <+: other)
    (h' : ¬ other <+: place) :
    (alter f place node?).bind (·.get? other) = node?.bind (·.get? other) := by
  induction place generalizing node? other with
  | nil => exact absurd List.nil_prefix h
  | cons n place ih =>
    cases other with
    | nil => exact absurd List.nil_prefix h'
    | cons k other =>
      cases node? with
      | none => rfl
      | some node =>
        cases node with
        | dir m es =>
          have hsound := hs _ rfl
          rw [get?_alter_cons f hsound]
          split_ifs with hk
          · subst hk
            rw [List.cons_prefix_cons] at h h'
            exact ih (fun child hc => hsound.child (Entries.mem_of_find? hc))
              (fun hp => h ⟨rfl, hp⟩) (fun hp => h' ⟨rfl, hp⟩)
          · rfl
        | _ => rfl

/-- Only what a change makes of the node that is there matters. -/
theorem alter_congr {f g : Option Node → Option Node} {place : Place} {node? : Option Node}
    (h : f (node?.bind (·.get? place)) = g (node?.bind (·.get? place))) :
    alter f place node? = alter g place node? := by
  induction place generalizing node? with
  | nil =>
    have hself : node?.bind (·.get? []) = node? := by cases node? <;> simp
    rw [hself] at h
    exact h
  | cons n place ih =>
    cases node? with
    | none => rfl
    | some node =>
      cases node with
      | dir mode es =>
        simp only [alter]
        rw [ih (by simpa using h)]
      | _ => rfl

/-- Above a place nothing changes but entries. -/
theorem look_alter_outside (f : Option Node → Option Node) {place other : Place}
    {node? : Option Node} (hs : ∀ node ∈ node?, node.IsSound) (h : ¬ place <+: other) :
    (alter f place node?).bind (·.look other) = node?.bind (·.look other) := by
  induction place generalizing node? other with
  | nil => exact absurd List.nil_prefix h
  | cons n place ih =>
    cases node? with
    | none => rfl
    | some node =>
      cases node with
      | dir m es =>
        have hsound := hs _ rfl
        cases other with
        | nil => rfl
        | cons k other =>
          have hlook (o : Option Node) (q : Place) :
              (o.bind fun x => x.look q) = (o.bind fun x => x.get? q).map face := by
            cases o <;> rfl
          rw [hlook, hlook, get?_alter_cons f hsound]
          split_ifs with hk
          · subst hk
            rw [List.cons_prefix_cons] at h
            rw [← hlook, ih (fun child hc => hsound.child (Entries.mem_of_find? hc))
              (fun hp => h ⟨rfl, hp⟩), hlook]
            rfl
          · rfl
      | _ => rfl

/-- A sound tree stays sound when something sound is put at a place with names. -/
theorem isSound_alter {f : Option Node → Option Node}
    (hf : ∀ node? : Option Node, (∀ node ∈ node?, node.IsSound) → ∀ x ∈ f node?, x.IsSound)
    {place : Place} (hplace : ∀ n ∈ place, IsName n) {node? : Option Node}
    (hs : ∀ node ∈ node?, node.IsSound) : ∀ x ∈ alter f place node?, x.IsSound := by
  induction place generalizing node? with
  | nil => exact hf node? hs
  | cons n place ih =>
    cases node? with
    | none => simp [alter]
    | some node =>
      cases node with
      | dir m es =>
        obtain ⟨hes, hall⟩ := isSound_dir_iff.mp (hs _ rfl)
        intro x hx
        obtain rfl := Option.some.inj hx
        refine isSound_dir_iff.mpr ⟨hes.set (hplace n List.mem_cons_self) _, fun e he => ?_⟩
        rcases Entries.mem_set he with ⟨y, hy, rfl⟩ | he
        · exact ih (fun k hk => hplace k (List.mem_cons_of_mem _ hk))
            (fun child hc => hall _ (Entries.mem_of_find? hc)) y hy
        · exact hall e he
      | _ => exact hs

end Node

namespace Disk

theorem alter_root (d : Disk) {place : Place} (hp : place ≠ []) (f : Option Node → Option Node) :
    Node.alter f place (some d.root) = some (d.alter place f).root := by
  obtain ⟨n, rest, rfl⟩ := List.exists_cons_of_ne_nil hp
  simp only [alter]
  cases d.root <;> rfl

@[simp] theorem alter_cwd (d : Disk) (place : Place) (f : Option Node → Option Node) :
    (d.alter place f).cwd = d.cwd := rfl

variable {d : Disk} {place : Place}

theorem alter_congr {f g : Option Node → Option Node}
    (h : f (d.root.get? place) = g (d.root.get? place)) : d.alter place f = d.alter place g := by
  have halter : Node.alter f place (some d.root) = Node.alter g place (some d.root) :=
    Node.alter_congr h
  rw [alter, alter, halter]

theorem get?_alter_self (hs : d.root.IsSound) (hp : place ≠ []) (hdir : d.root.IsDirAt place.dropLast)
    (f : Option Node → Option Node) :
    (d.alter place f).root.get? place = f (d.root.get? place) := by
  have hnode : ∀ node ∈ some d.root, node.IsSound := fun node hn => Option.some.inj hn ▸ hs
  have h := Node.get?_alter_self f hnode (.inr ⟨_, rfl, hdir⟩)
  rw [alter_root d hp] at h
  exact h

theorem get?_alter_append (hs : d.root.IsSound) {rest : Place} (hp : rest ≠ []) {x : Node}
    (hx : d.root.get? place = some x) (f : Option Node → Option Node) :
    (d.alter (place ++ rest) f).root.get? place = Node.alter f rest (some x) := by
  have h : (Node.alter f (place ++ rest) (some d.root)).bind (·.get? place) = _ :=
    Node.get?_alter_append f hs hx
  rw [alter_root d (by simp [hp])] at h
  exact h

theorem get?_alter_of_disjoint (hs : d.root.IsSound) (hp : place ≠ []) {other : Place}
    (h : ¬ place <+: other) (h' : ¬ other <+: place) (f : Option Node → Option Node) :
    (d.alter place f).root.get? other = d.root.get? other := by
  have hnode : ∀ node ∈ some d.root, node.IsSound := fun node hn => Option.some.inj hn ▸ hs
  have h := Node.get?_alter_of_disjoint f hnode h h'
  rw [alter_root d hp] at h
  exact h

theorem look_alter_outside (hs : d.root.IsSound) (hp : place ≠ []) {other : Place}
    (h : ¬ place <+: other) (f : Option Node → Option Node) :
    (d.alter place f).root.look other = d.root.look other := by
  have hnode : ∀ node ∈ some d.root, node.IsSound := fun node hn => Option.some.inj hn ▸ hs
  have h := Node.look_alter_outside f hnode h
  rw [alter_root d hp] at h
  exact h

theorem isSound_alter (hs : d.root.IsSound) {f : Option Node → Option Node}
    (hf : ∀ node? : Option Node, (∀ node ∈ node?, node.IsSound) → ∀ x ∈ f node?, x.IsSound)
    (hplace : ∀ n ∈ place, IsName n) : (d.alter place f).root.IsSound := by
  by_cases hp : place = []
  · subst hp
    simp only [alter, Node.alter]
    cases hx : f (some d.root) with
    | none => exact hs
    | some x => exact hf _ (fun node hn => Option.some.inj hn ▸ hs) x hx
  · have hnode : ∀ node ∈ some d.root, node.IsSound := fun node hn => Option.some.inj hn ▸ hs
    exact Node.isSound_alter hf hplace hnode _ (alter_root d hp f)

theorem get?_put_self (hs : d.root.IsSound) (hp : place ≠ [])
    (hdir : d.root.IsDirAt place.dropLast) (node : Node) (rest : Place) :
    (d.put place node).root.get? (place ++ rest) = node.get? rest := by
  rw [put, Node.get?_append, get?_alter_self hs hp hdir]
  rfl

theorem isSound_put (hs : d.root.IsSound) (hplace : ∀ n ∈ place, IsName n) {node : Node}
    (hn : node.IsSound) : (d.put place node).root.IsSound :=
  isSound_alter hs (fun _ _ _ hx => Option.some.inj hx ▸ hn) hplace

end Disk

end Depot.Files
