import Depot.Proofs.Archive.Reading

/-!
What one task of a copy does: it fails and changes nothing, or it makes one new node at its own
place, from what it reads. A directory that cannot be listed is made before the task fails.
-/

namespace Depot.Archive

open Files

/-- What a task leaves behind: nothing at all, or one new node at its own place. -/
inductive Effect (d : Disk) (route : Route) (root : Place) (task : Task) :
    Disk → Except Failure (List Task) → Prop
  | failed (f : Failure) : Effect d route root task d (.error f)
  | unlisted (f : Failure) :
    Effect d route root task (d.put (root ++ task.target) (.dir 0o755 [])) (.error f)
  | skipped {place : Place} (h : task = .entry place .special) :
    Effect d route root task d (.ok [])
  | kept {place : Place} {target : Bytes} (h : task = .entry place .link)
    (ht : d.readLink (Path.below route.source place) = .ok target)
    (hsafe : SafeLink.isSafe place target = true) :
    Effect d route root task (d.put (root ++ task.target) (.link target)) (.ok [])
  | filled {here : Place} {mode : Nat} {data : Bytes}
    (h : Reads d route.source task here (.file mode data))
    (hdata : Disk.contents (.file mode data) = .ok data) :
    Effect d route root task
      (d.put (root ++ task.target)
        (.file (if data = [] then mode else Disk.modeAfterWrite mode) data)) (.ok [])
  | opened {here : Place} {mode : Nat} {es : Entries}
    (h : Reads d route.source task here (.dir mode es)) :
    Effect d route root task (d.put (root ++ task.target) (.dir 0o755 []))
      (.ok (es.map fun e => task.child here e.1 e.2.kind))

/-- One task makes at most one new node, at its own place. -/
theorem Copying.effect_of_take {c c' : Copying} {route : Route} {root : Place} {task : Task}
    {r : Except Failure (List Task)} (hs : c.disk.root.IsSound)
    (hl : c.disk.LeadsTo route.dest root) (hr : Ready c.disk.root root task)
    (h : c.take route task = (c', r)) : Effect c.disk route root task c'.disk r := by
  have hwrites := writes_take hs hl hr
  rw [h] at hwrites
  generalize hread : task.read c.disk route.source = found at hwrites
  cases hwrites with
  | failed f => exact .failed f
  | refused => exact .failed _
  | skipped more =>
    cases r with
    | error f => cases Task.read_unlisted hread
    | ok more =>
      cases (Task.read_eq_ok_iff hs).mp hread with
      | skipped htask => exact .skipped htask
  | made more =>
    cases r with
    | error f =>
      obtain rfl := Option.some.inj (Task.read_unlisted hread)
      exact .unlisted f
    | ok more =>
      cases (Task.read_eq_ok_iff hs).mp hread with
      | kept htask ht hsafe => exact .kept htask ht hsafe
      | filled hmeets hdata => exact .filled hmeets.reads hdata
      | opened hmeets => exact .opened hmeets.reads

theorem Copying.of_tasks_ok {d : Disk} {source : Bytes} {ts : List Task}
    (h : Copying.tasks d source = .ok ts) :
    ts = [] ∨ ∃ here mode es, d.locate source = .ok (here, .dir mode es) ∧
      ts = es.map fun e => .entry [e.1] e.2.kind := by
  rw [Copying.tasks] at h
  cases hstat : d.stat source with
  | error e =>
    simp only [hstat] at h
    cases h
  | ok node =>
    simp only [hstat] at h
    by_cases hdir : node.isDir = true
    · rw [if_pos hdir] at h
      cases hlist : (⟨d, {}⟩ : Copying).list source (fun n kind => .entry [n] kind) with
      | error e =>
        rw [hlist] at h
        cases h
      | ok more =>
        rw [hlist] at h
        obtain rfl := Except.ok.inj h
        exact .inr (of_list_ok hlist)
    · rw [if_neg hdir] at h
      exact .inl (Except.ok.inj h).symm

theorem Copying.tasks_of_locate {d : Disk} {source : Bytes} {src : Place} {mode : Nat}
    {es : Entries} (h : d.locate source = .ok (src, .dir mode es)) :
    Copying.tasks d source = .ok (es.map fun e => .entry [e.1] e.2.kind) := by
  have hlist : (⟨d, {}⟩ : Copying).list source (fun n kind => .entry [n] kind) =
      .ok (es.map fun e => .entry [e.1] e.2.kind) := by
    rw [Copying.list, Disk.entries, Disk.stat, h]
    exact congrArg Except.ok (List.map_map ..)
  rw [Copying.tasks, Disk.stat, h]
  simp only [Functor.map, Except.map, Node.isDir, if_true, hlist, Except.mapError]

end Depot.Archive
