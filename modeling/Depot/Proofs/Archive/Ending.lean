import Depot.Proofs.Archive.Rendering

/-!
How a copy ends: with all its tasks taken, or with the first of them that fails. The bound on the
directories that it goes through never decides, since no path is long enough to reach it.
-/

namespace Depot.Archive

open Files

/-- Some tasks are carried out up to one that fails. -/
def Breaks (route : Route) (d : Disk) (tasks : List Task) (c' : Copying) (f : Failure) : Prop :=
  ∃ (c : Copying) (task : Task) (rest : List Task),
    Copies route (d, tasks) (c.disk, task :: rest) ∧ c.take route task = (c', .error f)

theorem Breaks.of_copies {route : Route} {d d' : Disk} {tasks tasks' : List Task} {c' : Copying}
    {f : Failure} (hc : Copies route (d, tasks) (d', tasks')) (h : Breaks route d' tasks' c' f) :
    Breaks route d tasks c' f := by
  obtain ⟨c, task, rest, hc', htake⟩ := h
  exact ⟨c, task, rest, hc.trans hc', htake⟩

/-- The ways a copy can end: its tree cannot be listed, all tasks are taken, or one of them fails. -/
inductive Finishes (d : Disk) (route : Route) : Disk → Except Failure Stats → Prop
  | unlisted {f : Failure} (ht : Copying.tasks d route.source = .error f) :
    Finishes d route d (.error f)
  | done {ts : List Task} {d' : Disk} (stats : Stats) (ht : Copying.tasks d route.source = .ok ts)
    (h : Copies route (d, ts) (d', [])) : Finishes d route d' (.ok stats)
  | failed {ts : List Task} {c' : Copying} {f : Failure}
    (ht : Copying.tasks d route.source = .ok ts) (h : Breaks route d ts c' f) :
    Finishes d route c'.disk (.error f)

namespace Copying

variable {route : Route} {root : Place}

/-- The tasks that one task gives lie one directory deeper, and their paths are no longer than any. -/
theorem length_target_of_take {c c' : Copying} {task : Task} {more : List Task}
    (hs : c.disk.root.IsSound) (hl : c.disk.LeadsTo route.dest root)
    (hr : Ready c.disk.root root task) (h : c.take route task = (c', .ok more)) :
    ∀ t ∈ more, t.target.length = task.target.length + 1 ∧ t.target.length ≤ Disk.pathLimit := by
  obtain ⟨node?, hprovides, hshort, -⟩ := (take_eq_ok_iff hs hl hr).mp h
  cases hprovides with
  | skipped | kept | filled => simp
  | @opened here mode es hmeets =>
    have hlt := length_le_of_isShort hl hr (hshort _ rfl)
    intro t ht
    obtain ⟨e, -, rfl⟩ := List.mem_map.mp ht
    rw [Task.target_child, List.length_append, List.length_singleton]
    exact ⟨rfl, hlt⟩

/-- With a directory to spare for each name that a path can have, only a failure stops a copy. -/
theorem breaks_of_takeAll (levels : Nat) {tasks rest : List Task} {p : Progress} {f : Failure}
    (hu : Underway root route.dest p.copying.disk (tasks ++ rest)) (hp : p.stop = none)
    (hlevels : ∀ t ∈ tasks, Disk.pathLimit < t.target.length + levels)
    (hlength : ∀ t ∈ tasks, t.target.length ≤ Disk.pathLimit)
    (h : (takeAll route levels tasks p).stop = some f) :
    Breaks route p.copying.disk (tasks ++ rest) (takeAll route levels tasks p).copying f := by
  induction levels generalizing tasks rest p with
  | zero =>
    cases tasks with
    | nil => simp [takeAll, hp] at h
    | cons task tasks =>
      have hlt := hlevels task List.mem_cons_self
      have hle := hlength task List.mem_cons_self
      omega
  | succ levels ih =>
    rw [takeAll] at h ⊢
    induction tasks generalizing p with
    | nil => simp [takeEach, hp] at h
    | cons task tasks iht =>
      have hr := hu.ready task List.mem_cons_self
      rw [takeEach, hp] at h ⊢
      cases htake : p.copying.take route task with
      | mk c r =>
      cases r with
      | error f' =>
        simp only [htake] at h ⊢
        obtain rfl := Option.some.inj h
        exact ⟨p.copying, task, tasks ++ rest, .refl, htake⟩
      | ok more =>
        simp only [htake] at h ⊢
        have hfirst : Copies route (p.copying.disk, task :: tasks ++ rest)
            (c.disk, more ++ (tasks ++ rest)) := .single (.take htake)
        have hmore := length_target_of_take hu.sound hu.leads hr htake
        have hu₁ := (hu.copies hfirst).1
        refine .of_copies hfirst ?_
        -- What the task gives stops the copy, or is taken before the others.
        cases hbelow : (takeAll route levels more ⟨c, p.taken + 1, none⟩).stop with
        | some f' =>
          have hkeep : takeEach route (takeAll route levels) tasks
              (takeAll route levels more ⟨c, p.taken + 1, none⟩) =
                takeAll route levels more ⟨c, p.taken + 1, none⟩ := by
            cases tasks <;> simp [takeEach, hbelow]
          rw [hkeep] at h ⊢
          refine ih hu₁ rfl (fun t ht => ?_) (fun t ht => (hmore t ht).2) h
          have hlt := hlevels task List.mem_cons_self
          have hlen := (hmore t ht).1
          omega
        | none =>
          have hrest := (isChain_takeAll route levels _ _ hbelow).2 (tasks ++ rest)
          exact .of_copies hrest (iht (hu₁.copies hrest).1 hbelow
            (fun t ht => hlevels t (List.mem_cons_of_mem _ ht))
            (fun t ht => hlength t (List.mem_cons_of_mem _ ht)) h)

theorem length_target_of_tasks {d : Disk} {source : Bytes} {ts : List Task}
    (h : Copying.tasks d source = .ok ts) : ∀ t ∈ ts, t.target.length = 1 := by
  rcases Copying.of_tasks_ok h with rfl | ⟨here, mode, es, -, rfl⟩
  · simp
  · intro t ht
    obtain ⟨e, -, rfl⟩ := List.mem_map.mp ht
    rfl

end Copying

/-- A copy into an empty directory ends with its last task or with the first that fails. -/
theorem replicate_finishes {d : Disk} (source : Bytes) {dest : Bytes} {top : Place} {mode : Nat}
    (hs : d.root.IsSound) (hdest : d.locate dest = .ok (top, .dir mode [])) :
    Finishes d ⟨source, dest⟩ (replicate d source dest).1 (replicate d source dest).2 := by
  rw [replicate]
  cases ht : Copying.tasks d source with
  | error f => exact .unlisted ht
  | ok ts =>
    have hu : Underway top dest d ts := .of_tasks hs (Disk.leadsTo_of_locate hdest)
      (Disk.get?_of_locate_ok hdest) ht
    have hone := Copying.length_target_of_tasks ht
    have hpathLimit : Disk.pathLimit = 4095 := rfl
    have hbreaks : ∀ f, (Copying.finish ⟨source, dest⟩ ts d).stop = some f →
        Breaks ⟨source, dest⟩ d ts (Copying.finish ⟨source, dest⟩ ts d).copying f := by
      intro f hstop
      have hu' : Underway top dest d (ts ++ []) := by rwa [List.append_nil]
      have h := Copying.breaks_of_takeAll (p := ⟨⟨d, {}⟩, 0, none⟩) Disk.pathLimit hu' rfl
        (fun t ht => by have := hone t ht; omega) (fun t ht => by have := hone t ht; omega) hstop
      rwa [List.append_nil] at h
    have hdone : (Copying.finish ⟨source, dest⟩ ts d).stop = none → Copies ⟨source, dest⟩ (d, ts)
        ((Copying.finish ⟨source, dest⟩ ts d).copying.disk, []) := Copying.copies_of_finish
    revert hbreaks hdone
    dsimp only
    obtain ⟨c, taken, stop⟩ := Copying.finish ⟨source, dest⟩ ts d
    intro hbreaks hdone
    cases stop with
    | none => exact .done _ ht (hdone rfl)
    | some f => exact .failed ht (hbreaks f rfl)

end Depot.Archive
