import Depot.Proofs.Archive.Boundary
import Depot.Proofs.Files.Deciding
import Depot.Proofs.Files.Writing
import Mathlib.Algebra.Order.BigOperators.Group.List
import Mathlib.Data.Finset.Card
import Mathlib.Data.List.Chain
import Mathlib.Tactic.Ring

/-!
Why a copy ends. Below a link that is replaced, links may lead back up and the walk may enter the same
directories again; but each link that is followed to a directory adds one to those on the way, and
between two such links the walk only goes down. So the number of tasks is bounded by the number of
nodes there are, whatever the links are like.
-/

namespace Depot.Files

/-! ### How many nodes there are -/

namespace Entries

theorem length_nodes_le {n : Name} {x : Node} {es : Entries} (h : (n, x) ∈ es) :
    x.nodes.length ≤ (Node.beneathAll es).length := by
  induction es with
  | nil => cases h
  | cons e es ih =>
    rw [Node.beneathAll_cons, List.length_append, List.length_map]
    rcases List.mem_cons.mp h with rfl | h
    · exact Nat.le_add_right _ _
    · exact (ih h).trans (Nat.le_add_left _ _)

theorem length_le_length_beneathAll (es : Entries) : es.length ≤ (Node.beneathAll es).length := by
  induction es with
  | nil => exact Nat.le_refl _
  | cons e es ih =>
    rw [Node.beneathAll_cons, List.length_append, List.length_map, List.length_cons, Node.nodes,
      List.length_cons]
    omega

end Entries

namespace Node

/-- There is a node for each name of a place, besides those at the place and below it. -/
theorem length_add_length_nodes_le {node x : Node} {place : Place} (h : node.get? place = some x) :
    place.length + x.nodes.length ≤ node.nodes.length := by
  induction place generalizing node with
  | nil =>
    rw [get?_nil] at h
    obtain rfl := Option.some.inj h
    simp
  | cons n place ih =>
    rw [get?_cons] at h
    obtain ⟨child, hchild, hx⟩ := Option.bind_eq_some_iff.mp h
    have hrest := ih hx
    have hbelow := Entries.length_nodes_le (Entries.mem_of_find? hchild)
    rw [List.length_cons, nodes.eq_def node, List.length_cons, beneath_eq]
    omega

def places (root : Node) : Finset Place := (root.nodes.map (·.1)).toFinset

theorem mem_places {root x : Node} {place : Place} (hs : root.IsSound)
    (h : root.get? place = some x) : place ∈ root.places := by
  rw [places, List.mem_toFinset]
  by_cases hne : place = []
  · simp [nodes, hne]
  · exact List.mem_map.mpr
      ⟨(place, x), List.mem_cons_of_mem _ ((mem_beneath_iff hs).mpr ⟨hne, h⟩), rfl⟩

theorem card_places_le (root : Node) : root.places.card ≤ root.nodes.length :=
  (List.toFinset_card_le _).trans (List.length_map _).le

/-! ### What is not taken away -/

/-- Everything in one tree is in the other too. -/
def PersistsIn (a b : Node) : Prop := ∀ place x, a.get? place = some x → b.look place = a.look place

theorem PersistsIn.steps {a b : Node} {w w' : Way} (h : a.PersistsIn b) (hsteps : Way.Steps a w w') :
    Way.Steps b w w' :=
  Relation.ReflTransGen.mono
    (fun _ _ => Way.Step.transfer fun place x hx => Disk.alike_of_look_eq (h place x hx) hx) _ _
    hsteps

end Node

/-- A path goes on leading where it leads as long as nothing is taken away. -/
theorem Disk.go_of_persists {d d' : Disk} {path : Bytes} {here : Place} (hcwd : d'.cwd = d.cwd)
    (h : d.root.PersistsIn d'.root) (hgo : ∃ x, d.go true path = .ok ⟨here, some x⟩) :
    ∃ x, d'.go true path = .ok ⟨here, some x⟩ := by
  obtain ⟨x, hgo⟩ := hgo
  obtain ⟨links, hsteps⟩ := steps_of_go hgo
  obtain ⟨hne, hnul, hends⟩ := ends_of_go_ok hgo
  have hx : d.root.get? here = some x := hends.get?.symm
  obtain ⟨y, hy, -⟩ := alike_of_look_eq (h here x hx) hx
  refine ⟨y, ?_⟩
  have hsteps' := h.steps hsteps
  rw [way, startPlace, ← hcwd, ← startPlace] at hsteps'
  rw [go_eq hne hnul, hsteps'.walk_eq]
  exact walk_nil hy

end Depot.Files

namespace Depot.Archive

open Files

/-- No directory that a copy lists is the one that it fills, or below it. -/
structure ListsOutside (d : Disk) (route : Route) (top : Place) : Prop where
  source : ∀ here mode es, d.locate route.source = .ok (here, .dir mode es) → ¬ top <+: here
  tasks : ∀ (ts : List Task) (d₁ : Disk) (task : Task) (rest : List Task) (here : Place) (mode : Nat)
    (es : Entries), Copying.tasks d route.source = .ok ts →
      Copies route (d, ts) (d₁, task :: rest) → Reads d₁ route.source task here (.dir mode es) →
        ¬ top <+: here

/-! ### Where a task stands -/

/-- A task is about the entry `n` of the directory at `here`. -/
inductive Waits (d₁ : Disk) (src : Place) : Task → Place → Name → Prop
  | entry {names : Place} {n : Name} {kind : Kind} :
    Waits d₁ src (.entry (names ++ [n]) kind) (src ++ names) n
  | inner {v : Visit} {n : Name} {kind : Kind} {here : Place} {way : List Place}
    (hway : v.way = here :: way) (hgo : ∃ x, d₁.go true v.path = .ok ⟨here, some x⟩) :
    Waits d₁ src (.inner v n kind) here n

/-- A task is about an entry that was there from the beginning. -/
structure Pending (d : Disk) (src top : Place) (d₁ : Disk) (task : Task) (here : Place) (n : Name) :
    Prop where
  waits : Waits d₁ src task here n
  off : ¬ top <+: here
  entry : (d.root.get? (here ++ [n])).map Node.kind = some task.kind

/-- What holds all along a copy: its tasks are about entries that were there from the beginning. -/
structure Walks (d : Disk) (route : Route) (src top : Place) (d₁ : Disk) (tasks : List Task) :
    Prop where
  underway : Underway top route.dest d₁ tasks
  same : d.root.SameOff top d₁.root
  source : ∃ x, d₁.go true route.source = .ok ⟨src, some x⟩
  pending : ∀ task ∈ tasks, ∃ here n, Pending d src top d₁ task here n

namespace Waits

variable {d₁ d₂ : Disk} {src here there : Place} {n : Name} {task : Task}

theorem mono (h : Waits d₁ src task here n) (hcwd : d₂.cwd = d₁.cwd)
    (hpersists : d₁.root.PersistsIn d₂.root) : Waits d₂ src task here n := by
  cases h with
  | entry => exact .entry
  | inner hway hgo => exact .inner hway (Disk.go_of_persists hcwd hpersists hgo)

/-- What a task reads its entry leads to. -/
theorem leads {source : Bytes} {x : Node} (h : Waits d₁ src task here n)
    (hsource : ∃ x, d₁.go true source = .ok ⟨src, some x⟩) (hnames : ∀ m ∈ task.target, IsName m)
    (hdir : d₁.root.IsDirAt here) (hreads : Reads d₁ source task there x) :
    Leads d₁.root here [n] there := by
  obtain ⟨y, hsource⟩ := hsource
  have hgo := hreads.go
  cases h with
  | entry =>
    have hopens := Disk.opens_of_go hsource
    exact hopens.leads hdir (spells_below hopens.ne_nil hopens.nul (by simp) hnames) hgo
  | @inner v n kind here way hway hgo' =>
    obtain ⟨z, hgo'⟩ := hgo'
    have hopens := Disk.opens_of_go hgo'
    have hn : IsName n := hnames n (List.mem_append_right _ List.mem_cons_self)
    have hdir' : d₁.root.IsDirAt (here ++ []) := by rwa [List.append_nil]
    have hleads := hopens.leads hdir' (spells_join hopens.ne_nil hopens.nul hn) hgo
    rwa [List.append_nil] at hleads

end Waits

theorem Copying.persistsIn_take {route : Route} {top : Place} {c : Copying} {task : Task}
    {rest : List Task} (hu : Underway top route.dest c.disk (task :: rest)) :
    (c.take route task).1.disk.cwd = c.disk.cwd ∧
      c.disk.root.PersistsIn (c.take route task).1.disk.root := by
  rcases Copying.adds_of_take hu with heq | ⟨node, hadds⟩
  · rw [heq]
    exact ⟨rfl, fun _ _ _ => rfl⟩
  · rw [hadds.put]
    refine ⟨rfl, fun place x hx => hu.look_put node ?_⟩
    rintro ⟨more, rfl⟩
    rw [Node.get?_append, hadds.free] at hx
    cases hx

section
variable {d : Disk} {route : Route} {src top here there : Place} {c : Copying} {n : Name}
  {task : Task} {rest : List Task} {mode : Nat} {es : Entries}
  (h : Walks d route src top c.disk (task :: rest)) (htop : d.root.IsDirAt top)
include h htop

namespace Pending

/-- A directory is listed alike as in the beginning. -/
theorem kind_eq (hoff : ¬ top <+: here) (n : Name) :
    (c.disk.root.get? (here ++ [n])).map Node.kind = (d.root.get? (here ++ [n])).map Node.kind :=
  (h.same.kind_eq htop h.underway.leads.dir hoff n).symm

theorem isDirAt (hp : Pending d src top c.disk task here n) : c.disk.root.IsDirAt here := by
  obtain ⟨x, hx, -⟩ := Option.map_eq_some_iff.mp ((kind_eq h htop hp.off n).trans hp.entry)
  exact .of_append (by simp) hx

/-- The entry of a directory is the directory itself. -/
theorem there_eq (hp : Pending d src top c.disk task here n) (hkind : task.kind = .directory)
    {x : Node} (hreads : Reads c.disk route.source task there x) : there = here ++ [n] := by
  have hnames := (h.underway.ready task List.mem_cons_self).names
  have hleads := hp.waits.leads h.source hnames (isDirAt h htop hp) hreads
  rcases hleads.singleton_cases with heq | ⟨target, ht⟩
  · exact heq
  · have hentry := (kind_eq h htop hp.off n).trans hp.entry
    rw [ht, hkind] at hentry
    cases hentry

theorem child (hp : Pending d src top c.disk task here n) (hoff : ¬ top <+: there)
    (hmeets : Meets c.disk route.source task there (.dir mode es)) {e : Name × Node} (he : e ∈ es) :
    Pending d src top c.disk (task.child there e.1 e.2.kind) there e.1 where
  off := hoff
  entry := by
    have hget := hmeets.reads.get?
    have hes := h.underway.sound.entries _ _ _ hget
    rw [← kind_eq h htop hoff, Task.kind_child, Node.get?_append, hget, Option.bind_some,
      Node.get?_dir_cons, hes.find?_of_mem he]
    rfl
  waits := by
    have hreads := hmeets.reads
    cases task with
    | entry place kind =>
      cases kind with
      | directory =>
        have heq := there_eq h htop hp rfl hreads
        cases hp.waits with
        | entry =>
          rw [heq, List.append_assoc]
          exact .entry
      | link => exact .inner rfl ⟨_, Disk.go_of_locate_ok (hmeets.named place rfl)⟩
      | file => exact absurd ((hmeets.kind (by simp [Task.kind])).mp rfl) (by simp [Task.kind])
      | special => exact absurd rfl (hmeets.special place)
    | inner v m kind => exact .inner rfl ⟨_, hreads.go⟩

end Pending

theorem Walks.step {c' : Copying} {more : List Task}
    (hlists : ∀ there mode es, Reads c.disk route.source task there (.dir mode es) →
      ¬ top <+: there)
    (htake : c.take route task = (c', .ok more)) :
    Walks d route src top c'.disk (more ++ rest) := by
  have hu := h.underway
  have hr := hu.ready task List.mem_cons_self
  obtain ⟨hu', hoff, -⟩ := hu.step (Copying.effect_of_take hu.sound hu.leads hr htake)
  obtain ⟨hcwd, hpersists⟩ := Copying.persistsIn_take hu
  rw [htake] at hcwd hpersists
  have hmono : ∀ {t : Task} {here : Place} {n : Name}, Pending d src top c.disk t here n →
      Pending d src top c'.disk t here n :=
    fun hp => ⟨hp.waits.mono hcwd hpersists, hp.off, hp.entry⟩
  refine ⟨hu', h.same.trans hoff, Disk.go_of_persists hcwd hpersists h.source, fun t ht => ?_⟩
  rcases List.mem_append.mp ht with ht | ht
  · obtain ⟨node?, hprovides, -, -⟩ := (Copying.take_eq_ok_iff hu.sound hu.leads hr).mp htake
    obtain ⟨here, n, hp⟩ := h.pending task List.mem_cons_self
    cases hprovides with
    | skipped | kept | filled => cases ht
    | @opened there mode es hmeets =>
      obtain ⟨e, he, rfl⟩ := List.mem_map.mp ht
      exact ⟨there, e.1, hmono (hp.child h htop (hlists _ _ _ hmeets.reads) hmeets he)⟩
  · obtain ⟨here, n, hp⟩ := h.pending t (List.mem_cons_of_mem _ ht)
    exact ⟨here, n, hmono hp⟩

end

/-! ### The measure -/

/-- How far the walk can still go: the directories that are not on the way, and then the levels below
the directory that was opened last. -/
def Visit.rank (root : Node) (v : Visit) : Nat :=
  (root.places \ v.way.toFinset).card * root.nodes.length +
    (root.nodes.length - (v.way.headD []).length)

/-- How many directories can still be opened below a task, one in the other. -/
def Task.rank (root : Node) : Task → Nat
  | .entry place _ => root.nodes.length * root.nodes.length + (root.nodes.length - place.length)
  | .inner v _ _ => v.rank root

/-- The most tasks that a task can lead to, itself included. -/
def Task.weight (root : Node) (task : Task) : Nat := root.nodes.length ^ task.rank root

theorem card_sdiff_cons {places : Finset Place} {there : Place} {way : List Place}
    (hthere : there ∈ places) (hnew : there ∉ way) :
    (places \ (there :: way).toFinset).card + 1 = (places \ way.toFinset).card := by
  rw [List.toFinset_cons, Finset.sdiff_insert]
  exact Finset.card_erase_add_one
    (Finset.mem_sdiff.mpr ⟨hthere, fun hmem => hnew (List.mem_toFinset.mp hmem)⟩)

theorem card_sdiff_cons_le (places : Finset Place) (there : Place) (way : List Place) :
    (places \ (there :: way).toFinset).card ≤ (places \ way.toFinset).card := by
  rw [List.toFinset_cons, Finset.sdiff_insert]
  exact Finset.card_erase_le

section
variable {d : Disk} {route : Route} {src top here there : Place} {c : Copying} {n : Name}
  {task : Task} {rest : List Task} {mode : Nat} {es : Entries}
  (h : Walks d route src top c.disk (task :: rest)) (htop : d.root.IsDirAt top)
include h htop

/-- Each directory that is opened below another one has a lower rank: it is a new one on the way, or
one level deeper. -/
theorem Pending.rank_child_lt (hs : d.root.IsSound) (hp : Pending d src top c.disk task here n)
    (hoff : ¬ top <+: there) (hmeets : Meets c.disk route.source task there (.dir mode es)) (m : Name)
    (kind : Kind) : (task.child there m kind).rank d.root < task.rank d.root := by
  obtain ⟨x, hx, -⟩ := Option.map_eq_some_iff.mp hp.entry
  obtain ⟨mode', es', hthere⟩ := (h.same.isDirAt hoff).mpr ⟨mode, es, hmeets.reads.get?⟩
  have hdeep := Node.length_add_length_nodes_le hthere
  have hdeep' := Node.length_add_length_nodes_le hx
  have hpos : ∀ node : Node, 0 < node.nodes.length := fun node => by simp [Node.nodes]
  have hpos' := hpos x
  have hpos'' := hpos (.dir mode' es')
  have hcard := Node.card_places_le d.root
  have hmem := Node.mem_places hs hthere
  rw [List.length_append, List.length_singleton] at hdeep'
  have hreads := hmeets.reads
  cases hp.waits with
  | @entry names n kind' =>
    rw [List.length_append] at hdeep'
    have hkind := hmeets.kind
    cases kind' with
    | directory =>
      simp only [Task.child, Task.rank, List.length_append, List.length_singleton]
      omega
    | link =>
      have hnew := card_sdiff_cons hmem (List.not_mem_nil (a := there))
      rw [List.toFinset_nil, Finset.sdiff_empty] at hnew
      have hfree := Nat.mul_le_mul_right d.root.nodes.length (hnew.trans_le hcard)
      rw [Nat.add_one_mul] at hfree
      simp only [Task.child, Task.rank, Visit.rank, List.length_append, List.length_singleton,
        List.headD_cons]
      omega
    | file => simp [Task.kind, Node.isDir] at hkind
    | special => exact absurd rfl (hmeets.special _)
  | @inner v n kind' here way hway hgo =>
    simp only [Task.child, Task.rank, Visit.rank, List.headD_cons]
    rw [hway, List.headD_cons, ← hway]
    by_cases hlink : kind' = .link
    · subst hlink
      cases hreads with
      | inner hfresh =>
        have hnew := card_sdiff_cons hmem (hfresh rfl rfl)
        rw [← hnew, Nat.add_one_mul]
        omega
    · have hdir : kind' = .directory := (hmeets.kind hlink).mp rfl
      have hle := Nat.mul_le_mul_right d.root.nodes.length
        (card_sdiff_cons_le d.root.places there v.way)
      have heq := hp.there_eq h htop hdir hreads
      rw [heq, List.length_append, List.length_singleton] at hdeep ⊢
      rw [heq] at hle
      omega

theorem Walks.length_lt (hs : d.root.IsSound) (hoff : ¬ top <+: there)
    (hget : c.disk.root.get? there = some (.dir mode es)) : es.length < d.root.nodes.length := by
  obtain ⟨mode', es', hget'⟩ := (h.same.isDirAt hoff).mpr ⟨mode, es, hget⟩
  have hlisting : (es.map fun e => (e.1, e.2.kind)) = es'.map fun e => (e.1, e.2.kind) := by
    refine (h.underway.sound.entries _ _ _ hget).listing_eq (hs.entries _ _ _ hget') fun n => ?_
    have hkind := Pending.kind_eq h htop hoff n
    rw [Node.get?_append, Node.get?_append, hget, hget', Option.bind_some, Option.bind_some] at hkind
    simpa using hkind
  have hlength : es.length = es'.length := by simpa using congrArg List.length hlisting
  have hnodes := Node.length_add_length_nodes_le hget'
  have hentries := Entries.length_le_length_beneathAll es'
  rw [Node.nodes_dir, List.length_cons] at hnodes
  omega

/-- A task weighs more than all the tasks that it gives. -/
theorem Walks.weight_more (hs : d.root.IsSound)
    (hlists : ∀ there mode es, Reads c.disk route.source task there (.dir mode es) →
      ¬ top <+: there) {c' : Copying} {more : List Task} (htake : c.take route task = (c', .ok more)) :
    (more.map (Task.weight d.root)).sum + 1 ≤ task.weight d.root := by
  have hu := h.underway
  have hpos : 0 < d.root.nodes.length := by simp [Node.nodes]
  obtain ⟨node?, hprovides, -, -⟩ :=
    (Copying.take_eq_ok_iff hu.sound hu.leads (hu.ready task List.mem_cons_self)).mp htake
  cases hprovides with
  | skipped | kept | filled => exact Nat.pow_pos hpos
  | @opened there mode es hmeets =>
    obtain ⟨here, n, hp⟩ := h.pending task List.mem_cons_self
    have hoff := hlists _ _ _ hmeets.reads
    have hlt := hp.rank_child_lt h htop hs hoff hmeets
    obtain ⟨rank, hrank⟩ := Nat.exists_eq_succ_of_ne_zero (Nat.ne_zero_of_lt (hlt [] .file))
    have hlength := Walks.length_lt h htop hs hoff hmeets.reads.get?
    have heach : ∀ w ∈ (es.map fun e => task.child there e.1 e.2.kind).map (Task.weight d.root),
        w ≤ d.root.nodes.length ^ rank := by
      intro w hw
      obtain ⟨t, ht, rfl⟩ := List.mem_map.mp hw
      obtain ⟨e, -, rfl⟩ := List.mem_map.mp ht
      have hchild := hlt e.1 e.2.kind
      exact Nat.pow_le_pow_right hpos (by omega)
    calc _ ≤ es.length * d.root.nodes.length ^ rank + 1 := by
          have hsum := List.sum_le_card_nsmul _ _ heach
          simp only [List.length_map, nsmul_eq_mul, Nat.cast_id] at hsum
          exact Nat.add_le_add_right hsum 1
      _ ≤ es.length * d.root.nodes.length ^ rank + d.root.nodes.length ^ rank :=
          Nat.add_le_add_left (Nat.pow_pos hpos) _
      _ = (es.length + 1) * d.root.nodes.length ^ rank := (Nat.add_one_mul _ _).symm
      _ ≤ d.root.nodes.length * d.root.nodes.length ^ rank := Nat.mul_le_mul_right _ hlength
      _ = task.weight d.root := by rw [Task.weight, hrank, Nat.pow_succ, Nat.mul_comm]

end

/-- However some tasks go on, there are no more of them than they weigh. -/
theorem Walks.length_le {d d₁ : Disk} {route : Route} {src top : Place} {ts tasks : List Task}
    (hs : d.root.IsSound) (htop : d.root.IsDirAt top) (hlists : ListsOutside d route top)
    (ht : Copying.tasks d route.source = .ok ts) (hc : Copies route (d, ts) (d₁, tasks))
    (h : Walks d route src top d₁ tasks) {l : List (Disk × List Task)}
    (hl : ((d₁, tasks) :: l).IsChain (Carries route)) :
    l.length ≤ (tasks.map (Task.weight d.root)).sum := by
  induction l generalizing d₁ tasks with
  | nil => exact Nat.zero_le _
  | cons s l ih =>
    obtain ⟨hstep, hrest⟩ := List.isChain_cons_cons.mp hl
    cases hstep with
    | @take c c' task more rest htake =>
      have hout : ∀ there mode es, Reads c.disk route.source task there (.dir mode es) →
          ¬ top <+: there := fun there mode es => hlists.tasks ts _ task rest there mode es ht hc
      have hlength := ih (hc.tail (.take htake)) (h.step htop hout htake) hrest
      have hmore := h.weight_more htop hs hout htake
      rw [List.map_append, List.sum_append] at hlength
      rw [List.map_cons, List.sum_cons, List.length_cons]
      omega

theorem Walks.of_locate {d : Disk} {route : Route} {src top : Place} {mode mode' : Nat}
    {es : Entries} (hs : d.root.IsSound) (hlists : ListsOutside d route top)
    (hdest : d.locate route.dest = .ok (top, .dir mode' []))
    (hsrc : d.locate route.source = .ok (src, .dir mode es)) :
    Walks d route src top d (es.map fun e => .entry [e.1] e.2.kind) where
  underway := .of_tasks hs (Disk.leadsTo_of_locate hdest) (Disk.get?_of_locate_ok hdest)
    (Copying.tasks_of_locate hsrc)
  same := .refl
  source := ⟨_, Disk.go_of_locate_ok hsrc⟩
  pending task htask := by
    have hget := Disk.get?_of_locate_ok hsrc
    obtain ⟨e, he, rfl⟩ := List.mem_map.mp htask
    have hwaits : Waits d src (.entry ([] ++ [e.1]) e.2.kind) (src ++ []) e.1 := .entry
    rw [List.append_nil] at hwaits
    refine ⟨src, e.1, hwaits, hlists.source _ _ _ hsrc, ?_⟩
    rw [Node.get?_append, hget, Option.bind_some, Node.get?_dir_cons,
      (hs.entries _ _ _ hget).find?_of_mem he]
    rfl

/-- Whatever the links are like, a copy comes to its end: it takes all its tasks, or one of them
fails, and there are never more tasks than a number that the nodes on the disk decide. -/
theorem replicate_ends {d : Disk} {source dest : Bytes} {top : Place} {mode : Nat}
    (hs : d.root.IsSound) (hdest : d.locate dest = .ok (top, .dir mode []))
    (hlists : ListsOutside d ⟨source, dest⟩ top) :
    Finishes d ⟨source, dest⟩ (replicate d source dest).1 (replicate d source dest).2 ∧
      ∀ ts l, Copying.tasks d source = .ok ts →
        List.IsChain (Carries ⟨source, dest⟩) ((d, ts) :: l) →
          l.length ≤ d.root.nodes.length ^ (d.root.nodes.length ^ 2 + d.root.nodes.length) := by
  refine ⟨replicate_finishes source hs hdest, fun ts l ht hl => ?_⟩
  have hpos : 0 < d.root.nodes.length := by simp [Node.nodes]
  have htop : d.root.IsDirAt top := ⟨mode, [], Disk.get?_of_locate_ok hdest⟩
  rcases Copying.of_tasks_ok ht with rfl | ⟨src, mode', es, hsrc, rfl⟩
  · cases l with
    | nil => exact Nat.zero_le _
    | cons s l =>
      have hstep := (List.isChain_cons_cons.mp hl).1
      generalize hstart : (d, ([] : List Task)) = start at hstep
      cases hstep
      cases hstart
  · have hwalks : Walks d ⟨source, dest⟩ src top d _ := .of_locate hs hlists hdest hsrc
    have hlength := hwalks.length_le hs htop hlists ht .refl hl
    refine hlength.trans ?_
    have hnodes := Node.length_add_length_nodes_le (Disk.get?_of_locate_ok hsrc)
    have hentries := Entries.length_le_length_beneathAll es
    rw [Node.nodes_dir, List.length_cons] at hnodes
    have heach : ∀ w ∈ (es.map fun e => Task.entry [e.1] e.2.kind).map (Task.weight d.root),
        w ≤ d.root.nodes.length ^ (d.root.nodes.length ^ 2 + (d.root.nodes.length - 1)) := by
      intro w hw
      obtain ⟨t, ht, rfl⟩ := List.mem_map.mp hw
      obtain ⟨e, -, rfl⟩ := List.mem_map.mp ht
      rw [Task.weight, Task.rank, List.length_singleton, Nat.pow_two]
    calc _ ≤ es.length *
            d.root.nodes.length ^ (d.root.nodes.length ^ 2 + (d.root.nodes.length - 1)) := by
          have hsum := List.sum_le_card_nsmul _ _ heach
          simpa only [List.length_map, nsmul_eq_mul, Nat.cast_id] using hsum
      _ ≤ d.root.nodes.length *
            d.root.nodes.length ^ (d.root.nodes.length ^ 2 + (d.root.nodes.length - 1)) :=
          Nat.mul_le_mul_right _ (by omega)
      _ = d.root.nodes.length ^ (d.root.nodes.length ^ 2 + d.root.nodes.length) := by
          rw [Nat.mul_comm, ← Nat.pow_succ, Nat.succ_eq_add_one, Nat.add_assoc,
            Nat.sub_add_cancel hpos]

/-- A link to a directory with a link back up, from where the walk comes down to it again. -/
def circling : Disk where
  root := .dir 0o755 [
    ([0x64], .dir 0o755 []),
    ([0x73], .dir 0o755 [([0x6C], .link [0x2E, 0x2E, 0x2F, 0x78, 0x2F, 0x61])]),
    ([0x78], .dir 0o755 [([0x61], .dir 0o755 [([0x75], .link [0x2E, 0x2E])])])]

theorem listsOutside_circling :
    ListsOutside circling ⟨[0x2F, 0x73], [0x2F, 0x64]⟩ [[0x64]] := by
  refine ⟨fun here mode es hloc => ?_, fun ts d task rest here mode es hts hc hreads => ?_⟩
  · cases hloc
    decide
  have htasks : Copying.tasks circling [0x2F, 0x73] = .ok [.entry [[0x6C]] .link] := rfl
  obtain rfl := Except.ok.inj (htasks.symm.trans hts)
  -- The walk goes to `/x/a`, up to `/x`, and down to `/x/a` again.
  let d₁ := circling.put [[0x64], [0x6C]] (.dir 0o755 [])
  let t₁ : Task := .inner ⟨[[[0x78], [0x61]]], [0x2F, 0x78, 0x2F, 0x61], [[0x6C]]⟩ [0x75] .link
  let d₂ := d₁.put [[0x64], [0x6C], [0x75]] (.dir 0o755 [])
  let t₂ : Task := t₁.child [[0x78]] [0x61] .directory
  let d₃ := d₂.put [[0x64], [0x6C], [0x75], [0x61]] (.dir 0o755 [])
  let t₃ : Task := t₂.child [[0x78], [0x61]] [0x75] .link
  rcases @Copies.cases_of_take circling d₁ _ _ [t₁] _ _ (fun stats => ⟨_, rfl⟩) hc with heq | hc
  · obtain ⟨rfl, htask⟩ := Prod.mk.inj heq
    obtain ⟨rfl, -⟩ := List.cons.inj htask
    cases hreads.go
    decide
  rcases @Copies.cases_of_take d₁ d₂ _ _ [t₂] _ _ (fun stats => ⟨_, rfl⟩) hc with heq | hc
  · obtain ⟨rfl, htask⟩ := Prod.mk.inj heq
    obtain ⟨rfl, -⟩ := List.cons.inj htask
    cases hreads.go
    decide
  rcases @Copies.cases_of_take d₂ d₃ _ _ [t₃] _ _ (fun stats => ⟨_, rfl⟩) hc with heq | hc
  · obtain ⟨rfl, htask⟩ := Prod.mk.inj heq
    obtain ⟨rfl, -⟩ := List.cons.inj htask
    cases hreads.go
    decide
  have hfails : ∀ stats, ∃ c' f, (⟨d₃, stats⟩ : Copying).take ⟨[0x2F, 0x73], [0x2F, 0x64]⟩ t₃ =
      (c', .error f) := fun stats => ⟨_, _, rfl⟩
  rcases Relation.ReflTransGen.cases_head hc with heq | ⟨v, hstep, -⟩
  · obtain ⟨rfl, htask⟩ := Prod.mk.inj heq
    obtain ⟨rfl, -⟩ := List.cons.inj htask
    cases hreads.go
    decide
  · generalize hstart : (d₃, [t₃] ++ ([] ++ ([] ++ []))) = start at hstep
    cases hstep with
    | @take c c' task more rest htake =>
      obtain ⟨disk, stats⟩ := c
      obtain ⟨hdisk, hfirst⟩ := Prod.mk.inj hstart
      obtain rfl : d₃ = disk := hdisk
      obtain ⟨rfl, -⟩ := List.cons.inj hfirst
      obtain ⟨c'', f, hfail⟩ := hfails stats
      cases hfail.symm.trans htake

/-- Coming to a directory on its way once more, the walk stops at the link that it has followed
before. -/
theorem replicate_ends_circling :
    (∃ f, (replicate circling [0x2F, 0x73] [0x2F, 0x64]).2 = .error f) ∧
      ∀ l, List.IsChain (Carries ⟨[0x2F, 0x73], [0x2F, 0x64]⟩)
        ((circling, [.entry [[0x6C]] .link]) :: l) → l.length ≤ 7 ^ (7 ^ 2 + 7) := by
  refine ⟨⟨_, rfl⟩, fun l hl => ?_⟩
  have hs : circling.root.IsSound := by decide
  exact (@replicate_ends circling [0x2F, 0x73] [0x2F, 0x64] [[0x64]] _ hs rfl
    listsOutside_circling).2 _ l rfl hl

end Depot.Archive
