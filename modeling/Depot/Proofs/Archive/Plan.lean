import Depot.Proofs.Archive.Mirror
import Depot.Proofs.Files.Enclosure

/-!
What a copy makes of a tree, wherever the tree is. The tasks of a copy are told here by places in the
tree and names from its top. As long as nothing that is followed leads out of the tree, the tree alone
decides what each of them makes.
-/

namespace Depot.Archive

open Files

/-- A visit, seen from the top of the tree: the directories on the way to it and its own, the names
of its path, and where its copy goes. -/
structure Trip where
  way : List Place
  names : Place
  place : Place

/-- A task, seen from the top of the tree. -/
inductive Chore where
  | entry (place : Place) (kind : Kind)
  | inner (trip : Trip) (name : Name) (kind : Kind)

namespace Chore

def task (top : Place) : Chore → Task
  | entry place kind => .entry place kind
  | inner v n kind => .inner ⟨v.way.map (top ++ ·), Disk.pathOf (top ++ v.names), v.place⟩ n kind

def target : Chore → Place
  | entry place _ => place
  | inner v n _ => v.place ++ [n]

/-- The names that lead from the top of the tree to what is copied. -/
def names (src : Place) : Chore → Place
  | entry place _ => src ++ place
  | inner v n _ => v.names ++ [n]

/-- The chore of an entry of the directory at `here`, which is what this chore copies. -/
def child (c : Chore) (here : Place) (n : Name) (kind : Kind) : Chore :=
  match c with
  | entry place .directory => entry (place ++ [n]) kind
  | entry place _ => inner ⟨[here], here, place⟩ n kind
  | inner v m _ => inner ⟨here :: v.way, v.names ++ [m], v.place ++ [m]⟩ n kind

/-- Links are followed for the chore: it replaces one that is not safe, or is below one. -/
def Follows (tree : Node) (src : Place) : Chore → Prop
  | entry place .link => ∃ target, tree.get? (src ++ place) = some (.link target) ∧
      SafeLink.isSafe place target = false
  | entry .. => False
  | inner .. => True

def way (src : Place) (c : Chore) : Way := ⟨linkLimit, [], (c.names src).map .name⟩

/-- What a chore copies, and where that is. -/
inductive Finds (tree : Node) (src : Place) : Chore → Place → Node → Prop
  | plain {place here : Place} {kind : Kind} {node : Node} (hlink : kind ≠ .link)
    (hspecial : kind ≠ .special)
    (h : walk tree true linkLimit [] ((src ++ place).map .name) = .ok ⟨here, some node⟩) :
    Finds tree src (.entry place kind) here node
  | replaced {place here : Place} {node : Node} (hf : (entry place .link).Follows tree src)
    (h : walk tree true linkLimit [] ((src ++ place).map .name) = .ok ⟨here, some node⟩) :
    Finds tree src (.entry place .link) here node
  | inner {v : Trip} {n : Name} {here : Place} {kind : Kind} {node : Node}
    (hway : kind = .link → node.isDir = true → here ∉ v.way)
    (h : walk tree true linkLimit [] ((v.names ++ [n]).map .name) = .ok ⟨here, some node⟩) :
    Finds tree src (.inner v n kind) here node

/-- What a chore makes, and the chores that come before all others then. -/
inductive Makes (tree : Node) (src : Place) : Chore → Option Node → List Chore → Prop
  | skipped {place : Place} : Makes tree src (.entry place .special) none []
  | kept {place : Place} {target : Bytes} (h : tree.get? (src ++ place) = some (.link target))
    (hsafe : SafeLink.isSafe place target = true) :
    Makes tree src (.entry place .link) (some (.link target)) []
  | filled {c : Chore} {here : Place} {mode : Nat} {data : Bytes}
    (h : c.Finds tree src here (.file mode data))
    (hdata : Disk.contents (.file mode data) = .ok data) :
    Makes tree src c (some (.file (if data = [] then mode else Disk.modeAfterWrite mode) data)) []
  | opened {c : Chore} {here : Place} {mode : Nat} {es : Entries}
    (h : c.Finds tree src here (.dir mode es)) :
    Makes tree src c (some (.dir 0o755 [])) (es.map fun e => c.child here e.1 e.2.kind)

section unique

variable {tree : Node} {src here here' : Place} {c : Chore} {node node' : Node}

theorem Finds.walk_eq (h : c.Finds tree src here node) :
    walk tree true linkLimit [] ((c.names src).map .name) = .ok ⟨here, some node⟩ := by
  cases h with
  | plain _ _ h => exact h
  | replaced _ h => exact h
  | inner _ h => exact h

theorem Finds.unique (h : c.Finds tree src here node) (h' : c.Finds tree src here' node') :
    here = here' ∧ node = node' := by
  have heq := Except.ok.inj (h.walk_eq.symm.trans h'.walk_eq)
  exact ⟨congrArg Found.place heq, Option.some.inj (congrArg Found.node heq)⟩

theorem Finds.not_skipped {place : Place} : ¬ (entry place .special).Finds tree src here node := by
  rintro (⟨-, hspecial, -⟩ | - | -)
  exact hspecial rfl

theorem Finds.not_kept {place : Place} {target : Bytes}
    (ht : tree.get? (src ++ place) = some (.link target))
    (hsafe : SafeLink.isSafe place target = true) :
    ¬ (entry place .link).Finds tree src here node := by
  rintro (⟨hlink, -, -⟩ | ⟨hf, -⟩ | -)
  · exact hlink rfl
  · obtain ⟨target', ht', hnot⟩ := hf
    obtain rfl := Node.link.inj (Option.some.inj (ht.symm.trans ht'))
    rw [hsafe] at hnot
    cases hnot

/-- The tree decides what a chore makes. -/
theorem Makes.unique {made made' : Option Node} {more more' : List Chore}
    (h : c.Makes tree src made more) (h' : c.Makes tree src made' more') :
    made = made' ∧ more = more' := by
  cases h with
  | skipped =>
    cases h' with
    | skipped => exact ⟨rfl, rfl⟩
    | filled h' => exact absurd h' Finds.not_skipped
    | opened h' => exact absurd h' Finds.not_skipped
  | kept h hsafe =>
    cases h' with
    | kept h' =>
      obtain rfl := Node.link.inj (Option.some.inj (h.symm.trans h'))
      exact ⟨rfl, rfl⟩
    | filled h' => exact absurd h' (Finds.not_kept h hsafe)
    | opened h' => exact absurd h' (Finds.not_kept h hsafe)
  | filled h =>
    cases h' with
    | skipped => exact absurd h Finds.not_skipped
    | kept h' hsafe => exact absurd h (Finds.not_kept h' hsafe)
    | filled h' =>
      cases (h.unique h').2
      exact ⟨rfl, rfl⟩
    | opened h' => cases (h.unique h').2
  | opened h =>
    cases h' with
    | skipped => exact absurd h Finds.not_skipped
    | kept h' hsafe => exact absurd h (Finds.not_kept h' hsafe)
    | filled h' => cases (h.unique h').2
    | opened h' =>
      obtain ⟨rfl, heq⟩ := h.unique h'
      cases heq
      exact ⟨rfl, rfl⟩

end unique

end Chore

/-- Puts something below a directory. -/
def fill (es : Entries) (node : Node) : Place → Entries
  | [] => es
  | n :: rest => Entries.set n (Node.alter (fun _ => some node) rest (Entries.find? n es)) es

/-- What is put below a directory is put into its entries. -/
theorem get?_put_fill {d : Disk} (hs : d.root.IsSound) {root place : Place} (hne : place ≠ [])
    {mode : Nat} {es : Entries} (hx : d.root.get? root = some (.dir mode es)) (node : Node) :
    (d.put (root ++ place) node).root.get? root = some (.dir mode (fill es node place)) := by
  rw [Disk.put, Disk.get?_alter_append hs hne hx]
  obtain ⟨n, rest, rfl⟩ := List.exists_cons_of_ne_nil hne
  rfl

/-- One chore is done, and those that it gives come before the rest. -/
inductive Works (tree : Node) (src : Place) : List Chore × Entries → List Chore × Entries → Prop
  | skip {c : Chore} {more rest : List Chore} {es : Entries} (h : c.Makes tree src none more) :
    Works tree src (c :: rest, es) (more ++ rest, es)
  | make {c : Chore} {node : Node} {more rest : List Chore} {es : Entries}
    (h : c.Makes tree src (some node) more) :
    Works tree src (c :: rest, es) (more ++ rest, fill es node c.target)

theorem works_rightUnique (tree : Node) (src : Place) : Relator.RightUnique (Works tree src) := by
  rintro _ _ _ (⟨h⟩ | ⟨h⟩) (⟨h'⟩ | ⟨h'⟩)
  · obtain ⟨-, rfl⟩ := h.unique h'
    rfl
  · cases (h.unique h').1
  · cases (h.unique h').1
  · obtain ⟨heq, rfl⟩ := h.unique h'
    cases heq
    rfl

theorem eq_of_works_nil {tree : Node} {src : Place} {made : Entries} {s : List Chore × Entries}
    (h : Relation.ReflTransGen (Works tree src) ([], made) s) : s = ([], made) := by
  rcases Relation.ReflTransGen.cases_head h with heq | ⟨s', hstep, -⟩
  · exact heq.symm
  · cases hstep

/-- The first chores: one for each entry. -/
def chores (es : Entries) : List Chore := es.map fun e => .entry [e.1] e.2.kind

/-- What doing chores comes to that begins with those of a directory and with nothing made. -/
def Reaches (tree : Node) (src : Place) (s : List Chore × Entries) : Prop :=
  ∃ mode es, tree.get? src = some (.dir mode es) ∧
    Relation.ReflTransGen (Works tree src) (chores es, []) s

theorem Reaches.unique {tree : Node} {src : Place} {made made' : Entries}
    (h : Reaches tree src ([], made)) (h' : Reaches tree src ([], made')) : made = made' := by
  obtain ⟨mode, es, hx, hsteps⟩ := h
  obtain ⟨mode', es', hx', hsteps'⟩ := h'
  cases Option.some.inj (hx.symm.trans hx')
  rcases Relation.ReflTransGen.total_of_right_unique (works_rightUnique tree src) hsteps hsteps' with
    hrest | hrest
  · exact (congrArg Prod.snd (eq_of_works_nil hrest)).symm
  · exact congrArg Prod.snd (eq_of_works_nil hrest)

/-- No link that is followed in a copy leads out of the tree. -/
def IsConfined (tree : Node) (src : Place) : Prop :=
  ∀ c rest made, Reaches tree src (c :: rest, made) → c.Follows tree src →
    (c.way src).IsInside tree

namespace Chore

/-- An entry is there, with the kind that it was listed with; the path of a visit is made of names. -/
def Stands (tree : Node) (src : Place) : Chore → Prop
  | entry place kind => place ≠ [] ∧ (tree.get? (src ++ place)).map Node.kind = some kind
  | inner v n _ => ∀ m ∈ v.names ++ [n], IsName m

section

variable {tree : Node} {src top here : Place} {c : Chore} {d : Disk} {node : Node}

@[simp] theorem target_task (top : Place) (c : Chore) : (c.task top).target = c.target := by
  cases c <;> rfl

theorem Stands.names (h : c.Stands tree src) (hs : tree.IsSound) : ∀ n ∈ c.names src, IsName n := by
  cases c with
  | entry place kind =>
    obtain ⟨x, hx, -⟩ := Option.map_eq_some_iff.mp h.2
    exact hs.names hx
  | inner v n kind => exact h

theorem Stands.path_eq (h : c.Stands tree src) (hs : tree.IsSound) (hb : d.Bears top tree) :
    (c.task top).path (Disk.pathOf (top ++ src)) = Disk.pathOf (top ++ c.names src) := by
  have hnames := h.names hs
  cases c with
  | entry place kind =>
    have hsrc : ∀ n ∈ top ++ src, IsName n := fun n hn => by
      rcases List.mem_append.mp hn with hn | hn
      · exact hb.names n hn
      · exact hnames n (List.mem_append_left _ hn)
    rw [task, Task.path, Disk.below_pathOf hsrc h.1 fun n hn => hnames n (List.mem_append_right _ hn),
      List.append_assoc]
    rfl
  | inner v n kind =>
    have hv : ∀ m ∈ top ++ v.names, IsName m := fun m hm => by
      rcases List.mem_append.mp hm with hm | hm
      · exact hb.names m hm
      · exact hnames m (List.mem_append_left _ hm)
    have hbelow := Disk.below_pathOf hv (List.cons_ne_nil n [])
      (by simpa using hnames n (List.mem_append_right _ (by simp)))
    rw [List.append_assoc] at hbelow
    exact hbelow

/-- Where the tree is, the chore of an entry is the task of that entry. -/
theorem Stands.task_child (h : c.Stands tree src) (hs : tree.IsSound) (hb : d.Bears top tree)
    (here : Place) (n : Name) (kind : Kind) :
    (c.task top).child (top ++ here) n kind = (c.child here n kind).task top := by
  cases c with
  | entry place kind' => cases kind' <;> rfl
  | inner v m kind' =>
    have hpath : ((inner v m kind').task top).path (Disk.pathOf (top ++ src)) =
        Disk.pathOf (top ++ (v.names ++ [m])) := h.path_eq hs hb
    simp only [task, Task.path] at hpath
    simp only [task, Task.child, child, hpath, List.map_cons]

theorem Stands.of_readLink {place : Place} {kind : Kind} {target : Bytes}
    (h : (entry place kind).Stands tree src) (hs : tree.IsSound) (hb : d.Bears top tree)
    (hsrc : tree.IsDirAt src)
    (ht : d.readLink (Path.below (Disk.pathOf (top ++ src)) place) = .ok target) :
    tree.get? (src ++ place) = some (.link target) := by
  have hnames := h.names hs
  obtain ⟨hne, hkind⟩ := h
  obtain ⟨x, hx, -⟩ := Option.map_eq_some_iff.mp hkind
  have hdir : d.root.IsDirAt (top ++ src) := (Way.isDirAt_under hb.holds src).mpr hsrc
  have hall : ∀ n ∈ top ++ src, IsName n := fun n hn => by
    rcases List.mem_append.mp hn with hn | hn
    · exact hb.names n hn
    · exact hnames n (List.mem_append_left _ hn)
  have hopens := Disk.opens_pathOf hdir hall
  obtain ⟨found, hgo, hget⟩ := Disk.of_readLink_ok ht
  have hspells := spells_below hopens.ne_nil hopens.nul hne
    fun n hn => hnames n (List.mem_append_right _ hn)
  rcases List.eq_nil_or_concat place with rfl | ⟨init, n, rfl⟩
  · exact absurd rfl hne
  rw [List.concat_eq_append] at hspells hgo hx ⊢
  have hinit : d.root.IsDirAt (top ++ src ++ init) := by
    rw [List.append_assoc, Way.isDirAt_under hb.holds]
    rw [← List.append_assoc] at hx
    exact .of_append (by simp) hx
  have hplace := hopens.place_eq hinit hspells hgo
  dsimp only at hplace
  rwa [hplace, List.append_assoc, List.append_assoc, Way.get?_under hb.holds] at hget

/-- The way of a chore stays in the tree if the links that are followed for it do not lead out. -/
theorem Stands.isInside (h : c.Stands tree src)
    (hin : c.Follows tree src → (c.way src).IsInside tree)
    (hlink : ∀ place, c = entry place .link → c.Follows tree src) : (c.way src).IsInside tree := by
  cases c with
  | inner v n kind => exact hin trivial
  | entry place kind =>
    by_cases hkind : kind = .link
    · subst hkind
      exact hin (hlink place rfl)
    · obtain ⟨x, hx, hx'⟩ := Option.map_eq_some_iff.mp h.2
      have hx : tree.get? ([] ++ (src ++ place)) = some x := hx
      refine Way.isInside_names hx fun target heq => hkind ?_
      rw [← hx', heq]
      rfl

/-- What a task reads is what its chore finds. -/
theorem Stands.of_reads (h : c.Stands tree src) (hs : tree.IsSound) (hb : d.Bears top tree)
    (hsrc : tree.IsDirAt src) (hin : c.Follows tree src → (c.way src).IsInside tree)
    (hspecial : ∀ place, c ≠ entry place .special)
    (hreads : Reads d (Disk.pathOf (top ++ src)) (c.task top) here node) :
    ∃ there, here = top ++ there ∧ c.Finds tree src there node := by
  have hlink : ∀ place, c = entry place .link → c.Follows tree src := by
    rintro place rfl
    cases hreads with
    | plain hkind => exact absurd rfl hkind
    | replaced ht hnot => exact ⟨_, h.of_readLink hs hb hsrc ht, hnot⟩
  have hgo := hreads.go
  rw [h.path_eq hs hb, hb.go_under true (h.names hs) (h.isInside hin hlink)] at hgo
  cases hwalk : walk tree true linkLimit [] ((c.names src).map .name) with
  | error e =>
    rw [hwalk] at hgo
    cases hgo
  | ok found =>
    obtain ⟨there, node'⟩ := found
    rw [hwalk] at hgo
    cases hgo
    refine ⟨there, rfl, ?_⟩
    cases c with
    | entry place kind =>
      by_cases hkind : kind = .link
      · subst hkind
        exact .replaced (hlink place rfl) hwalk
      · exact .plain hkind (fun heq => hspecial place (by rw [heq])) hwalk
    | inner v n kind =>
      cases hreads with
      | inner hway =>
        exact .inner (fun hk hdir hmem => hway hk hdir (List.mem_map_of_mem hmem)) hwalk

theorem Finds.get? (h : c.Finds tree src here node) : tree.get? here = some node :=
  (ends_of_walk_ok (Node.get?_nil tree) h.walk_eq).get?.symm

theorem Finds.leads (h : c.Finds tree src here node) : Leads tree [] (c.names src) here := by
  obtain ⟨links, hsteps⟩ := (ends_of_walk_ok (Node.get?_nil tree) h.walk_eq).steps
  exact ⟨linkLimit, links, hsteps⟩

theorem Stands.child (hc : c.Stands tree src) (hs : tree.IsSound) {mode : Nat} {es : Entries}
    (h : c.Finds tree src here (.dir mode es)) {e : Name × Node} (he : e ∈ es) :
    (c.child here e.1 e.2.kind).Stands tree src := by
  have hes := hs.entries here mode es h.get?
  have hbelow : ∀ {names : Place}, (∀ n ∈ names, IsName n) → ∀ n ∈ names ++ [e.1], IsName n := by
    intro names hnames n hn
    rcases List.mem_append.mp hn with hn | hn
    · exact hnames n hn
    · obtain rfl := List.mem_singleton.mp hn
      exact hes.names e he
  cases c with
  | inner v n kind => exact hbelow hc
  | entry place kind =>
    by_cases hkind : kind = .directory
    · subst hkind
      -- The entry is a directory itself, so its names lead straight down.
      obtain ⟨x, hx, hx'⟩ := Option.map_eq_some_iff.mp hc.2
      have hdir : tree.IsDirAt ([] ++ (src ++ place)) := by
        cases x with
        | dir mode es => exact ⟨mode, es, hx⟩
        | _ => cases hx'
      obtain rfl : here = src ++ place := h.leads.eq_append hdir
      refine ⟨by simp, ?_⟩
      rw [← List.append_assoc, Node.get?_append, h.get?, Option.bind_some, Node.get?_dir_cons,
        hes.find?_of_mem he]
      simp
    · have hnames := hbelow (hs.names h.get?)
      cases kind with
      | directory => exact absurd rfl hkind
      | _ => exact hnames

theorem Stands.makes_of_take {dest : Bytes} {root : Place} {more : List Task} {copying c' : Copying}
    (hc : c.Stands tree src) (hs : tree.IsSound) (hsound : copying.disk.root.IsSound)
    (hb : copying.disk.Bears top tree) (hsrc : tree.IsDirAt src)
    (hin : c.Follows tree src → (c.way src).IsInside tree) (hl : copying.disk.LeadsTo dest root)
    (hr : Ready copying.disk.root root (c.task top))
    (h : copying.take ⟨Disk.pathOf (top ++ src), dest⟩ (c.task top) = (c', .ok more)) :
    ∃ cs, more = cs.map (task top) ∧ (∀ m ∈ cs, m.Stands tree src) ∧
      (c.Makes tree src none cs ∧ c'.disk = copying.disk ∨
        ∃ node, c.Makes tree src (some node) cs ∧
          c'.disk = copying.disk.put (root ++ c.target) node) := by
  by_cases hspecial : ∃ place, c = entry place .special
  · obtain ⟨place, rfl⟩ := hspecial
    obtain ⟨rfl, hmore⟩ := Prod.mk.inj h
    exact ⟨[], (Except.ok.inj hmore).symm, by simp, .inl ⟨.skipped, rfl⟩⟩
  have hnot : ∀ place, c ≠ entry place .special := fun place heq => hspecial ⟨place, heq⟩
  have heffect := Copying.effect_of_take hsound hl hr h
  rw [← target_task top c]
  generalize c'.disk = d' at heffect
  cases heffect with
  | @skipped place htask =>
    cases c with
    | inner => cases htask
    | entry place' kind =>
      cases htask
      exact absurd rfl (hnot place)
  | @kept place target htask ht hsafe =>
    cases c with
    | inner => cases htask
    | entry place' kind =>
      cases htask
      exact ⟨[], rfl, by simp, .inr ⟨_, .kept (hc.of_readLink hs hb hsrc ht) hsafe, rfl⟩⟩
  | filled hreads hdata =>
    obtain ⟨there, -, hfinds⟩ := hc.of_reads hs hb hsrc hin hnot hreads
    exact ⟨[], rfl, by simp, .inr ⟨_, .filled hfinds hdata, rfl⟩⟩
  | opened hreads =>
    obtain ⟨there, rfl, hfinds⟩ := hc.of_reads hs hb hsrc hin hnot hreads
    refine ⟨_, ?_, fun m hm => ?_, .inr ⟨_, .opened hfinds, rfl⟩⟩
    · rw [List.map_map]
      exact List.map_congr_left fun e _ => hc.task_child hs hb there e.1 e.2.kind
    · obtain ⟨e, he, rfl⟩ := List.mem_map.mp hm
      exact hc.child hs hfinds he

end

end Chore

theorem Reaches.isDirAt {tree : Node} {src : Place} {s : List Chore × Entries}
    (h : Reaches tree src s) : tree.IsDirAt src := by
  obtain ⟨mode, es, hx, -⟩ := h
  exact ⟨mode, es, hx⟩

theorem Reaches.tail {tree : Node} {src : Place} {s s' : List Chore × Entries}
    (h : Reaches tree src s) (hstep : Works tree src s s') : Reaches tree src s' := by
  obtain ⟨mode, es, hx, hsteps⟩ := h
  exact ⟨mode, es, hx, hsteps.tail hstep⟩

/-- A copy into the directory at `root` has come as far as its chores have. -/
structure Matches (tree : Node) (top src root : Place) (d : Disk) (tasks : List Task)
    (cs : List Chore) (made : Entries) : Prop where
  tasks_eq : tasks = cs.map (Chore.task top)
  stands : ∀ c ∈ cs, c.Stands tree src
  holds : ∃ mode, d.root.get? root = some (.dir mode made)
  reached : Reaches tree src (cs, made)

section

variable {tree : Node} {top src root : Place} {d d' : Disk} {tasks : List Task}

theorem matches_of_tasks {mode mode' : Nat} {es : Entries} (hs : tree.IsSound)
    (hsound : d.root.IsSound) (hb : d.Bears top tree) (hsrc : tree.get? src = some (.dir mode es))
    (hempty : d.root.get? root = some (.dir mode' []))
    (h : Copying.tasks d (Disk.pathOf (top ++ src)) = .ok tasks) :
    Matches tree top src root d tasks (chores es) [] := by
  have hx : d.root.get? (top ++ src) = some (.dir mode es) := (Way.get?_under hb.holds src).trans hsrc
  refine ⟨?_, fun c hc => ?_, ⟨mode', hempty⟩, mode, es, hsrc, .refl⟩
  · rw [Copying.tasks, Disk.stat] at h
    cases hloc : d.locate (Disk.pathOf (top ++ src)) with
    | error e =>
      rw [hloc] at h
      cases h
    | ok found =>
      obtain ⟨here, node⟩ := found
      obtain ⟨-, rfl⟩ := Disk.of_locate_pathOf hsound hx (by simp) hloc
      have hlist : (⟨d, {}⟩ : Copying).list (Disk.pathOf (top ++ src))
          (fun n kind => .entry [n] kind) = .ok (es.map fun e => .entry [e.1] e.2.kind) := by
        rw [Copying.list, Disk.entries, Disk.stat, hloc]
        exact congrArg Except.ok (List.map_map ..)
      rw [hloc] at h
      simp only [Functor.map, Except.map, Node.isDir, if_true, hlist, Except.mapError] at h
      rw [← Except.ok.inj h, chores, List.map_map]
      rfl
  · obtain ⟨e, he, rfl⟩ := List.mem_map.mp hc
    refine ⟨by simp, ?_⟩
    rw [Node.get?_append, hsrc, Option.bind_some, Node.get?_dir_cons,
      (hs.entries src mode es hsrc).find?_of_mem he]
    simp

theorem Matches.take {k c' : Copying} {task : Task} {rest more : List Task} {dest : Bytes}
    {cs : List Chore} {made : Entries} (h : Matches tree top src root k.disk (task :: rest) cs made)
    (hs : tree.IsSound) (hb : k.disk.Bears top tree) (hconfined : IsConfined tree src)
    (hu : Underway root dest k.disk (task :: rest))
    (htake : k.take ⟨Disk.pathOf (top ++ src), dest⟩ task = (c', .ok more)) :
    ∃ cs' made', Matches tree top src root c'.disk (more ++ rest) cs' made' := by
  obtain ⟨htasks, hstands, ⟨mode, hholds⟩, hreached⟩ := h
  cases cs with
  | nil => cases htasks
  | cons c cs =>
  obtain ⟨rfl, rfl⟩ := List.cons.inj htasks
  have hr := hu.ready _ List.mem_cons_self
  obtain ⟨new, rfl, hnew, hmade⟩ := (hstands c List.mem_cons_self).makes_of_take hs hu.sound hb
    hreached.isDirAt (hconfined c cs made hreached) hu.leads hr htake
  have hall : ∀ m ∈ new ++ cs, m.Stands tree src := fun m hm => by
    rcases List.mem_append.mp hm with hm | hm
    · exact hnew m hm
    · exact hstands m (List.mem_cons_of_mem _ hm)
  rcases hmade with ⟨hmakes, hd⟩ | ⟨node, hmakes, hd⟩
  · exact ⟨new ++ cs, made, by simp, hall, ⟨mode, hd ▸ hholds⟩, hreached.tail (.skip hmakes)⟩
  · have hne : c.target ≠ [] := by simpa using hr.ne_nil
    refine ⟨new ++ cs, fill made node c.target, by simp, hall, ⟨mode, ?_⟩,
      hreached.tail (.make hmakes)⟩
    rw [hd]
    exact get?_put_fill hu.sound hne hholds node

/-- A tree stays where it is when something apart from it changes. -/
theorem bears_of_sameOff (hb : d.Bears top tree) (hs : d.root.IsSound) (hs' : d'.root.IsSound)
    (hsame : d.root.SameOff root d'.root) (hoff : ¬ root <+: top) (hoff' : ¬ top <+: root) :
    d'.Bears top tree := by
  refine ⟨hb.ne_nil, hb.names, hb.short, ?_, hb.dir⟩
  rw [← hb.holds]
  refine (Node.get?_eq_of_look_eq hs hs' fun rest => hsame _ fun hp => ?_).symm
  rcases List.prefix_or_prefix_of_prefix hp (List.prefix_append top rest) with h | h
  · exact hoff h
  · exact hoff' h

end

end Depot.Archive
