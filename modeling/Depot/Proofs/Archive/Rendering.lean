import Depot.Proofs.Archive.Mirror

/-!
What comes of a task with all the tasks that it gives in turn. A copy takes one task at a time; here
the same is told by the tree of its tasks, and by what they find on the disk that the copy began with.
-/

namespace Depot.Archive

open Files

/-! ### What a task provides while a copy goes on -/

/-- What a task meets apart from a directory it meets whatever is in the directory. -/
theorem Meets.frame {a b : Disk} {source : Bytes} {top here : Place} {task : Task} {node : Node}
    (hs : a.root.IsSound) (hcwd : b.cwd = a.cwd) (hsame : a.root.SameOff top b.root)
    (ha : a.root.IsDirAt top)
    (hoff : Way.Avoids a.root top (a.way (task.path source)))
    (hlink : ∀ place target, task = .entry place .link →
      a.readLink (Path.below source place) = .ok target →
        b.readLink (Path.below source place) = .ok target)
    (h : Meets a source task here node) :
    ¬ top <+: here ∧ ∃ node', node'.face = node.face ∧ Meets b source task here node' := by
  obtain ⟨hreads, hkind, hspecial, hnamed, hresolved⟩ := h
  have hback : ∀ {x y : Node}, y.face = x.face → y.isDir = x.isDir := fun hface => by
    rw [← Node.isDir_face, hface, Node.isDir_face]
  have hlocate := fun {path : Bytes} =>
    @Disk.locate_of_avoids b a path top here node hcwd.symm hsame.symm ha
  have hresolve := fun {path : Bytes} =>
    @Disk.resolve_of_avoids b a path top here node hcwd.symm hsame.symm ha
  cases hreads with
  | plain hnot hloc =>
    obtain ⟨hhere, y, hface, hloc'⟩ := hlocate hoff hloc
    refine ⟨hhere, y, hface, .plain hnot hloc', ?_, hspecial, ?_, by simp⟩
    · rwa [hback hface]
    · rintro _ ⟨⟩
      exact absurd rfl hnot
  | @replaced place here target node ht hnot hres =>
    obtain ⟨hhere, y, hface, hres'⟩ := hresolve hoff hres
    obtain ⟨hget, hnolink⟩ := Disk.of_resolve_ok hres
    obtain ⟨-, y', hface', hloc'⟩ := hlocate (Disk.avoids_pathOf hs hget hnolink hhere)
      (hnamed place rfl)
    obtain rfl : y' = y := Option.some.inj
      ((Disk.get?_of_locate_ok hloc').symm.trans (Disk.of_resolve_ok hres').1)
    exact ⟨hhere, y', hface, .replaced (hlink place target rfl ht) hnot hres', by simp [Task.kind],
      by simp, fun _ _ => hloc', by simp⟩
  | @inner v n here kind node hway hloc =>
    obtain ⟨hhere, y, hface, hloc'⟩ := hlocate hoff hloc
    refine ⟨hhere, y, hface, .inner ?_ hloc', ?_, by simp, by simp, ?_⟩
    · rwa [hback hface]
    · rwa [hback hface]
    · rintro _ _ ⟨rfl, rfl⟩
      obtain ⟨-, y', hface', hres'⟩ := hresolve hoff (hresolved v n rfl)
      obtain rfl : y' = y := Option.some.inj
        ((Disk.of_resolve_ok hres').1.symm.trans (Disk.get?_of_locate_ok hloc'))
      exact hres'

theorem Provides.frame {a b : Disk} {source : Bytes} {top : Place} {task : Task}
    {node? : Option Node} {more : List Task} (hs : a.root.IsSound) (hs' : b.root.IsSound)
    (hcwd : b.cwd = a.cwd) (hsame : a.root.SameOff top b.root) (ha : a.root.IsDirAt top)
    (hb : b.root.IsDirAt top)
    (hoff : task.IsFollowed a source → Way.Avoids a.root top (a.way (task.path source)))
    (hlink : ∀ place target, task = .entry place .link →
      a.readLink (Path.below source place) = .ok target →
        b.readLink (Path.below source place) = .ok target)
    (h : Provides a source task node? more) : Provides b source task node? more := by
  cases h with
  | skipped h => exact .skipped h
  | kept h ht hsafe => exact .kept h (hlink _ _ h ht) hsafe
  | @filled here mode data h hdata =>
    obtain ⟨-, node', hface, h'⟩ := h.frame hs hcwd hsame ha (hoff h.reads.isFollowed) hlink
    obtain rfl : node' = .file mode data := by
      cases node' with
      | dir mode es => cases hface
      | _ => exact hface
    exact .filled h' hdata
  | @opened here mode es h =>
    obtain ⟨hhere, node', hface, h'⟩ := h.frame hs hcwd hsame ha (hoff h.reads.isFollowed) hlink
    obtain ⟨mode', es', rfl⟩ : ∃ mode' es', node' = .dir mode' es' := by
      cases node' with
      | dir mode' es' => exact ⟨mode', es', rfl⟩
      | _ => cases hface
    have hget := h.reads.get?
    have hget' := h'.reads.get?
    have hlisting : (es.map fun e => (e.1, e.2.kind)) = es'.map fun e => (e.1, e.2.kind) := by
      refine (hs.entries _ _ _ hget).listing_eq (hs'.entries _ _ _ hget') fun n => ?_
      have hkind := hsame.kind_eq ha hb hhere n
      rw [Node.get?_append, Node.get?_append, hget, hget', Option.bind_some, Option.bind_some]
        at hkind
      simpa using hkind
    have hmore := congrArg (List.map fun e : Name × Kind => task.child here e.1 e.2) hlisting
    rw [List.map_map, List.map_map] at hmore
    have hopened : Provides b source task _ _ := .opened h'
    rwa [show (es'.map fun e => task.child here e.1 e.2.kind) =
      es.map fun e => task.child here e.1 e.2.kind from hmore.symm] at hopened

section
variable {d d₁ : Disk} {route : Route} {src top : Place} {mode mode' : Nat} {es : Entries}
  {ts rest : List Task} {task : Task} (hs : d.root.IsSound) (hout : LooksOutside d route top)
  (hdest : d.locate route.dest = .ok (top, .dir mode []))
  (hsrc : d.locate route.source = .ok (src, .dir mode' es))
  (ht : Copying.tasks d route.source = .ok ts)
include hs hout hdest hsrc ht

end

/-! ### What comes of tasks -/

def Task.name : Task → Name
  | .entry place _ => place.getLast?.getD []
  | .inner _ n _ => n

namespace Stats

theorem add_zero (a : Stats) : a + 0 = a := rfl

theorem zero_add (a : Stats) : 0 + a = a := by
  show Stats.mk _ _ _ = a
  simp only [show (0 : Stats) = ⟨0, 0, 0⟩ from rfl, Nat.zero_add]

theorem add_assoc (a b c : Stats) : a + b + c = a + (b + c) := by
  show Stats.mk _ _ _ = Stats.mk _ _ _
  simp only [HAdd.hAdd, Add.add, Stats.mk.injEq]
  exact ⟨Nat.add_assoc .., Nat.add_assoc .., Nat.add_assoc ..⟩

end Stats

/-- What came of a task, with all that it gave: the node that is at its place now, if any, and what
it counts for. -/
structure Outcome where
  task : Task
  node? : Option Node
  stats : Stats

namespace Outcome

/-- The entries that came of the tasks of a directory. -/
def entries (outs : List Outcome) : Entries :=
  outs.filterMap fun o => o.node?.map fun node => (o.task.name, node)

def total (outs : List Outcome) : Stats := (outs.map stats).sum

theorem total_cons (o : Outcome) (outs : List Outcome) : total (o :: outs) = o.stats + total outs := by
  simp [total]

theorem exists_of_mem {outs : List Outcome} {es : Entries} {child : Name × Node → Task}
    {o : Outcome} (htasks : outs.map task = es.map child) (ho : o ∈ outs) :
    ∃ e ∈ es, o.task = child e := by
  have hmem : o.task ∈ outs.map task := List.mem_map_of_mem ho
  rw [htasks] at hmem
  obtain ⟨e, he, heq⟩ := List.mem_map.mp hmem
  exact ⟨e, he, heq.symm⟩

theorem eq_of_tasks_eq {outs outs' : List Outcome}
    (h : ∀ o ∈ outs, ∀ o' ∈ outs', o.task = o'.task → o = o')
    (htasks : outs.map task = outs'.map task) : outs = outs' := by
  induction outs generalizing outs' with
  | nil => exact (List.map_eq_nil_iff.mp htasks.symm).symm
  | cons o outs ih =>
    cases outs' with
    | nil => cases htasks
    | cons o' outs' =>
      obtain ⟨hfirst, hrest⟩ : o.task = o'.task ∧ outs.map task = outs'.map task :=
        List.cons.inj htasks
      rw [h o List.mem_cons_self o' List.mem_cons_self hfirst,
        ih (fun o ho o' ho' => h o (List.mem_cons_of_mem _ ho) o' (List.mem_cons_of_mem _ ho')) hrest]

end Outcome

/-- What a task counts for before what it gives is taken. -/
def Task.count (task : Task) : Option Node → Stats
  | some node => task.tally node
  | none => 0

namespace Copying

/-- The state after something came of a task. -/
def after (root : Place) (c : Copying) (o : Outcome) : Copying :=
  ⟨o.node?.elim c.disk (c.disk.put (root ++ o.task.target)), c.stats + o.stats⟩

theorem take_eq_ok_iff {c c' : Copying} {route : Route} {root : Place} {task : Task}
    {more : List Task} (hs : c.disk.root.IsSound) (hl : c.disk.LeadsTo route.dest root)
    (hr : Ready c.disk.root root task) :
    c.take route task = (c', .ok more) ↔
      ∃ node?, Provides c.disk route.source task node? more ∧
        (∀ node ∈ node?, Disk.IsShort (task.spelling route.dest node) task.target) ∧
        c' = c.after root ⟨task, node?, task.count node?⟩ := by
  have hwrites := writes_take hs hl hr
  constructor
  · intro h
    rw [h] at hwrites
    generalize hread : task.read c.disk route.source = found at hwrites
    cases hwrites with
    | skipped => exact ⟨none, (Task.read_eq_ok_iff hs).mp hread, nofun, rfl⟩
    | made more hfits =>
      refine ⟨_, (Task.read_eq_ok_iff hs).mp hread, ?_, rfl⟩
      rintro _ ⟨⟩
      exact hfits
  · rintro ⟨node?, hprovides, hshort, rfl⟩
    rw [(Task.read_eq_ok_iff hs).mpr hprovides] at hwrites
    generalize htake : c.take route task = taken at hwrites
    cases hwrites with
    | skipped => rfl
    | made => rfl
    | refused _ hnot => exact absurd (hshort _ rfl) hnot

end Copying

/-- What comes of a task: what it makes itself, and in a directory what comes of the tasks that the
directory gives. Everything is read from one disk. -/
inductive Renders (d : Disk) (route : Route) : Outcome → Prop
  | leaf {task : Task} {node? : Option Node} (h : Provides d route.source task node? [])
    (hleaf : ∀ node ∈ node?, node.isDir = false)
    (hshort : ∀ node ∈ node?, Disk.IsShort (task.spelling route.dest node) task.target) :
    Renders d route ⟨task, node?, task.count node?⟩
  | dir {task : Task} {here : Place} {mode : Nat} {es : Entries} {outs : List Outcome}
    (h : Meets d route.source task here (.dir mode es))
    (hshort : Disk.IsShort (task.spelling route.dest (.dir 0o755 [])) task.target)
    (htasks : outs.map Outcome.task = es.map fun e => task.child here e.1 e.2.kind)
    (houts : ∀ o ∈ outs, Renders d route o) :
    Renders d route ⟨task, some (.dir 0o755 (Outcome.entries outs)),
      task.tally (.dir 0o755 []) + Outcome.total outs⟩

theorem Renders.unique {d : Disk} {route : Route} {a b : Outcome} (hs : d.root.IsSound)
    (ha : Renders d route a) (hb : Renders d route b) (htask : a.task = b.task) : a = b := by
  induction ha generalizing b with
  | leaf h hleaf =>
    cases hb with
    | leaf h' =>
      subst htask
      obtain ⟨rfl, -⟩ := h.unique hs h'
      rfl
    | dir h' =>
      subst htask
      obtain ⟨rfl, -⟩ := h.unique hs (.opened h')
      exact absurd (hleaf _ rfl) (by simp [Node.isDir])
  | @dir task here mode es outs h _ htasks houts ih =>
    cases hb with
    | leaf h' hleaf =>
      subst htask
      obtain ⟨rfl, -⟩ := h'.unique hs (.opened h)
      exact absurd (hleaf _ rfl) (by simp [Node.isDir])
    | @dir _ here' mode' es' outs' h' _ htasks' houts' =>
      subst htask
      obtain ⟨-, hmore⟩ := Provides.unique hs (.opened h) (.opened h')
      have hsame : outs.map Outcome.task = outs'.map Outcome.task :=
        htasks.trans (hmore.trans htasks'.symm)
      have heq := Outcome.eq_of_tasks_eq (fun o ho o' ho' => ih o ho (houts' o' ho')) hsame
      rw [heq]

namespace Copying

end Copying

section
variable {d : Disk} {route : Route} {src top : Place} {mode mode' : Nat} {es : Entries}
  {ts : List Task} (hs : d.root.IsSound) (hout : LooksOutside d route top)
  (hdest : d.locate route.dest = .ok (top, .dir mode []))
  (hsrc : d.locate route.source = .ok (src, .dir mode' es))
  (ht : Copying.tasks d route.source = .ok ts)
include hs hout hdest hsrc ht

omit hs hout hdest hsrc ht in
theorem length_le_of_isShort {c : Copying} {task : Task} {node : Node} {root : Place}
    (hl : c.disk.LeadsTo route.dest root) (hr : Ready c.disk.root root task)
    (h : Disk.IsShort (task.spelling route.dest node) task.target) :
    task.target.length < Disk.pathLimit := by
  obtain ⟨ns, n, htarget, -, hspells, -⟩ := Copying.writes_of_ready hl hr
  have hlength := hspells.two_mul_length_le
  have hlimit := (Task.isShort_below h).path
  have hpathLimit : Disk.pathLimit = 4095 := rfl
  rw [← htarget] at hlength
  omega

omit hs hout hdest hsrc in
theorem replicate_eq_ok_iff_finish {d' : Disk} {stats : Stats} :
    replicate d route.source route.dest = (d', .ok stats) ↔
      (Copying.finish route ts d).stop = none ∧
        (Copying.finish route ts d).copying = ⟨d', stats⟩ := by
  rw [replicate, ht]
  dsimp only
  obtain ⟨⟨disk, counted⟩, taken, stop⟩ := Copying.finish route ts d
  cases stop <;> simp

end

end Depot.Archive
