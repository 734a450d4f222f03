import Depot.Proofs.Archive.Effect

/-!
What a copy keeps true all the way: it writes only below the directory that it fills, where each task
has a place of its own, and no link that it leaves there is unsafe.
-/

namespace Depot.Archive

open Files

/-- A node as a task makes it: a directory is empty, and a link is safe where it is. -/
inductive IsFresh (place : Place) : Node → Prop
  | file (mode : Nat) (data : Bytes) : IsFresh place (.file mode data)
  | link {target : Bytes} (ht : IsTarget target) (hsafe : SafeLink.isSafe place target = true) :
    IsFresh place (.link target)
  | dir (mode : Nat) : IsFresh place (.dir mode [])

namespace IsFresh

variable {place rest : Place} {node : Node}

theorem isSound (h : IsFresh place node) : node.IsSound := by
  cases h with
  | file mode data => exact Node.isSound_file mode data
  | link ht hsafe => exact Node.isSound_link_iff.mpr ht
  | dir mode => exact Node.isSound_dir_iff.mpr ⟨Entries.IsSound.nil, by simp⟩

theorem get?_of_ne_nil (h : IsFresh place node) (hrest : rest ≠ []) : node.get? rest = none := by
  obtain ⟨n, more, rfl⟩ := List.exists_cons_of_ne_nil hrest
  cases h <;> rfl

theorem isSafe_of_get? (h : IsFresh place node) {target : Bytes}
    (ht : node.get? rest = some (.link target)) : rest = [] ∧ SafeLink.isSafe place target = true := by
  by_cases hrest : rest = []
  · subst hrest
    cases h with
    | link ht' hsafe =>
      obtain rfl : _ = target := by simpa using ht
      exact ⟨rfl, hsafe⟩
    | _ => simp at ht
  · rw [h.get?_of_ne_nil hrest] at ht
    cases ht

end IsFresh

/-- What holds all along a copy: the directory that is filled can be reached, the tasks that are left
have places of their own, and the links made so far are safe. -/
structure Underway (root : Place) (dest : Bytes) (d : Disk) (tasks : List Task) : Prop where
  sound : d.root.IsSound
  leads : d.LeadsTo dest root
  links : ∀ place target, d.root.get? (root ++ place) = some (.link target) →
    SafeLink.isSafe place target = true
  ready : ∀ task ∈ tasks, Ready d.root root task
  distinct : tasks.Pairwise fun a b => a.target ≠ b.target

namespace Underway

variable {d : Disk} {root : Place} {dest : Bytes} {tasks : List Task} {task : Task} {node : Node}

/-- Nothing happens to a copy while what it fills stays as it is. -/
theorem frame (h : Underway root dest d tasks) {d' : Disk} (hs : d'.root.IsSound)
    (hl : d'.LeadsTo dest root)
    (hsame : ∀ place, d'.root.get? (root ++ place) = d.root.get? (root ++ place)) :
    Underway root dest d' tasks where
  sound := hs
  leads := hl
  links place target ht := h.links place target (hsame place ▸ ht)
  ready task ht := by
    obtain ⟨hne, hnames, hdir, hfree⟩ := h.ready task ht
    refine ⟨hne, hnames, ?_, hsame _ ▸ hfree⟩
    obtain ⟨mode, es, hx⟩ := hdir
    exact ⟨mode, es, (hsame _).trans hx⟩
  distinct := h.distinct

/-- The directory above a task's place is none that another task still has to make. -/
theorem not_prefix_dropLast {other : Task} (ht : Ready d.root root task)
    (ho : Ready d.root root other) :
    ¬ root ++ task.target <+: root ++ other.target.dropLast := by
  intro hp
  obtain ⟨mode, es, hx⟩ := ho.dir.of_prefix hp
  rw [ht.free] at hx
  cases hx

theorem separate {other : Task} (ht : Ready d.root root task) (ho : Ready d.root root other)
    (hne : task.target ≠ other.target) : ¬ root ++ task.target <+: root ++ other.target := by
  intro hp
  obtain ⟨init, n, hinit⟩ : ∃ init n, other.target = init ++ [n] := by
    rcases List.eq_nil_or_concat other.target with hnil | ⟨init, n, h⟩
    · exact absurd hnil ho.ne_nil
    · exact ⟨init, n, by rw [h, List.concat_eq_append]⟩
  have hlast := not_prefix_dropLast ht ho
  rw [List.prefix_append_right_inj] at hp hlast
  rw [hinit, List.dropLast_concat] at hlast
  rw [hinit] at hp hne
  rcases List.prefix_concat_iff.mp hp with heq | hprefix
  · exact hne heq
  · exact hlast hprefix

theorem root_names (h : Underway root dest d (task :: tasks)) :
    ∀ n ∈ root ++ task.target, IsName n := by
  obtain ⟨mode, es, hx⟩ := h.leads.dir
  intro n hn
  rcases List.mem_append.mp hn with hn | hn
  · exact h.sound.names hx n hn
  · exact (h.ready task List.mem_cons_self).names n hn

theorem dir_above (h : Underway root dest d (task :: tasks)) :
    d.root.IsDirAt (root ++ task.target).dropLast := by
  have hr := h.ready task List.mem_cons_self
  rw [List.dropLast_append_of_ne_nil hr.ne_nil]
  exact hr.dir

theorem look_put (h : Underway root dest d (task :: tasks)) (node : Node) {place : Place}
    (hp : ¬ root ++ task.target <+: place) :
    (d.put (root ++ task.target) node).root.look place = d.root.look place :=
  Disk.look_alter_outside h.sound (by simp [(h.ready task List.mem_cons_self).ne_nil]) hp _

theorem get?_put (h : Underway root dest d (task :: tasks)) (node : Node) (rest : Place) :
    (d.put (root ++ task.target) node).root.get? (root ++ task.target ++ rest) = node.get? rest :=
  Disk.get?_put_self h.sound (by simp [(h.ready task List.mem_cons_self).ne_nil]) h.dir_above node
    rest

theorem sameOff_put (h : Underway root dest d (task :: tasks)) (node : Node) :
    d.root.SameOff root (d.put (root ++ task.target) node).root := fun _ hother =>
  (h.look_put node fun hp => hother ((List.prefix_append _ _).trans hp)).symm

theorem put (h : Underway root dest d (task :: tasks)) (hnode : IsFresh task.target node) :
    Underway root dest (d.put (root ++ task.target) node) tasks where
  sound := Disk.isSound_put h.sound h.root_names hnode.isSound
  leads := by
    refine h.leads.frame rfl (h.sameOff_put node) ?_
    refine (Node.isDirAt_of_look_eq (h.look_put node fun hp => ?_)).mpr h.leads.dir
    have hlen := hp.length_le
    rw [List.length_append] at hlen
    exact (h.ready task List.mem_cons_self).ne_nil (List.length_eq_zero_iff.mp (by omega))
  links place target ht := by
    by_cases hp : root ++ task.target <+: root ++ place
    · obtain ⟨rest, hrest⟩ := (List.prefix_append_right_inj _).mp hp
      rw [← hrest, ← List.append_assoc, h.get?_put] at ht
      obtain ⟨rfl, hsafe⟩ := hnode.isSafe_of_get? ht
      rw [← hrest, List.append_nil]
      exact hsafe
    · refine h.links place target ?_
      rw [← Node.look_eq_some_iff rfl, ← h.look_put node hp, Node.look_eq_some_iff rfl]
      exact ht
  ready other ho := by
    have hr := h.ready task List.mem_cons_self
    have hro := h.ready other (List.mem_cons_of_mem _ ho)
    have hne := (List.pairwise_cons.mp h.distinct).1 other ho
    refine ⟨hro.ne_nil, hro.names, ?_, ?_⟩
    · exact (Node.isDirAt_of_look_eq (h.look_put node (not_prefix_dropLast hr hro))).mpr hro.dir
    · rw [← Node.look_eq_none_iff, h.look_put node (separate hr hro hne), Node.look_eq_none_iff]
      exact hro.free
  distinct := (List.pairwise_cons.mp h.distinct).2

/-- Tasks of the directory that was just made may come before all others. -/
theorem put_dir (h : Underway root dest d (task :: tasks)) (mode : Nat) (here : Place)
    {es : Entries} (hes : Entries.IsSound es) :
    Underway root dest (d.put (root ++ task.target) (.dir mode []))
      ((es.map fun e => task.child here e.1 e.2.kind) ++ tasks) := by
  have hput := h.put (.dir mode)
  have hr := h.ready task List.mem_cons_self
  have hchild : ∀ t ∈ es.map fun e => task.child here e.1 e.2.kind,
      ∃ e ∈ es, t.target = task.target ++ [e.1] := by
    intro t ht
    obtain ⟨e, he, rfl⟩ := List.mem_map.mp ht
    exact ⟨e, he, task.target_child here e.1 e.2.kind⟩
  refine ⟨hput.sound, hput.leads, hput.links, fun t ht => ?_, ?_⟩
  · rcases List.mem_append.mp ht with ht | ht
    · obtain ⟨e, he, htarget⟩ := hchild t ht
      have hself := h.get?_put (.dir mode []) []
      have hbelow := h.get?_put (.dir mode []) [e.1]
      rw [List.append_nil] at hself
      refine ⟨by simp [htarget], fun n hn => ?_, ?_, ?_⟩
      · rw [htarget] at hn
        rcases List.mem_append.mp hn with hn | hn
        · exact hr.names n hn
        · obtain rfl := List.mem_singleton.mp hn
          exact hes.names e he
      · rw [htarget, List.dropLast_concat]
        exact ⟨mode, [], hself⟩
      · rw [htarget, ← List.append_assoc]
        exact hbelow
    · exact hput.ready t ht
  · rw [List.pairwise_append, List.pairwise_map]
    refine ⟨hes.sorted.imp fun {a b} hlt heq => ?_, hput.distinct, fun t ht other ho heq => ?_⟩
    · simp only [Task.target_child, List.append_cancel_left_eq, List.cons.injEq, and_true] at heq
      rw [heq] at hlt
      exact List.lt_irrefl _ hlt
    · obtain ⟨e, he, htarget⟩ := hchild t ht
      have hno := not_prefix_dropLast hr (h.ready other (List.mem_cons_of_mem _ ho))
      rw [← heq, htarget, List.dropLast_concat] at hno
      exact hno List.prefix_rfl

/-- One task keeps up what holds all along, and writes nowhere but below the directory that is
filled. -/
theorem step {route : Route} {d' : Disk} {more : List Task}
    (h : Underway root route.dest d (task :: tasks))
    (he : Effect d route root task d' (.ok more)) :
    Underway root route.dest d' (more ++ tasks) ∧ d.root.SameOff root d'.root ∧
      d'.cwd = d.cwd := by
  cases he with
  | skipped htask =>
    refine ⟨⟨h.sound, h.leads, h.links, fun t ht => h.ready t (List.mem_cons_of_mem _ ht),
      (List.pairwise_cons.mp h.distinct).2⟩, .refl, rfl⟩
  | @kept place target htask ht hsafe =>
    obtain ⟨here, -, hx⟩ := Disk.of_readLink_ok ht
    have hfresh : IsFresh task.target (.link target) := by
      refine .link (h.sound.targets here target hx) ?_
      rw [htask]
      exact hsafe
    exact ⟨h.put hfresh, h.sameOff_put _, rfl⟩
  | filled hreads hdata => exact ⟨h.put (.file _ _), h.sameOff_put _, rfl⟩
  | @opened here mode es hreads =>
    have hes := h.sound.entries here mode es hreads.get?
    exact ⟨h.put_dir _ here hes, h.sameOff_put _, rfl⟩

/-- Whether it fails or not, a task writes nowhere but below the directory that is filled. -/
theorem sameOff_effect {route : Route} {d' : Disk} {r : Except Failure (List Task)}
    (h : Underway root route.dest d (task :: tasks)) (he : Effect d route root task d' r) :
    d'.root.IsSound ∧ d.root.SameOff root d'.root ∧ d'.cwd = d.cwd := by
  cases r with
  | ok more =>
    obtain ⟨hu, hsame, hcwd⟩ := h.step he
    exact ⟨hu.sound, hsame, hcwd⟩
  | error f =>
    cases he with
    | failed => exact ⟨h.sound, .refl, rfl⟩
    | unlisted => exact ⟨(h.put (.dir 0o755)).sound, h.sameOff_put _, rfl⟩

theorem of_tasks {mode : Nat} {source : Bytes} (hs : d.root.IsSound) (hl : d.LeadsTo dest root)
    (hempty : d.root.get? root = some (.dir mode [])) (ht : Copying.tasks d source = .ok tasks) :
    Underway root dest d tasks := by
  have hnothing : ∀ place, place ≠ [] → d.root.get? (root ++ place) = none := by
    intro place hne
    obtain ⟨n, rest, rfl⟩ := List.exists_cons_of_ne_nil hne
    rw [Node.get?_append, hempty]
    rfl
  obtain ⟨es, hes, rfl⟩ : ∃ es : Entries, Entries.IsSound es ∧
      tasks = es.map fun e => .entry [e.1] e.2.kind := by
    rcases Copying.of_tasks_ok ht with rfl | ⟨here, mode, es, hloc, rfl⟩
    · exact ⟨[], .nil, rfl⟩
    · exact ⟨es, hs.entries here mode es (Disk.get?_of_locate_ok hloc), rfl⟩
  refine ⟨hs, hl, fun place target hx => ?_, fun task htask => ?_, ?_⟩
  · by_cases hne : place = []
    · subst hne
      simp [hempty] at hx
    · rw [hnothing place hne] at hx
      cases hx
  · obtain ⟨e, he, rfl⟩ := List.mem_map.mp htask
    refine ⟨by simp [Task.target], fun n hn => ?_, ?_, hnothing _ (by simp [Task.target])⟩
    · obtain rfl := List.mem_singleton.mp hn
      exact hes.names e he
    · simpa [Task.target] using hl.dir
  · rw [List.pairwise_map]
    refine hes.sorted.imp fun {a b} hlt heq => ?_
    simp only [Task.target, List.cons.injEq, and_true] at heq
    rw [heq] at hlt
    exact List.lt_irrefl _ hlt

end Underway

/-- One task is taken, and what it gives comes before the rest. -/
inductive Carries (route : Route) : Disk × List Task → Disk × List Task → Prop
  | take {c c' : Copying} {task : Task} {more rest : List Task}
    (h : c.take route task = (c', .ok more)) :
    Carries route (c.disk, task :: rest) (c'.disk, more ++ rest)

abbrev Copies (route : Route) : Disk × List Task → Disk × List Task → Prop :=
  Relation.ReflTransGen (Carries route)

namespace Copying

/-- Carrying out tasks to the end is a chain of single tasks. -/
def IsChain (route : Route) (carryOut : List Task → Progress → Progress) : Prop :=
  ∀ tasks p, (carryOut tasks p).stop = none →
    p.stop = none ∧ ∀ rest, Copies route (p.copying.disk, tasks ++ rest)
      ((carryOut tasks p).copying.disk, rest)

theorem isChain_takeEach {route : Route} {below : List Task → Progress → Progress}
    (hbelow : IsChain route below) : IsChain route (takeEach route below) := by
  intro tasks
  induction tasks with
  | nil => exact fun p hp => ⟨hp, fun rest => .refl⟩
  | cons task tasks ih =>
    intro p hp
    rw [takeEach] at hp ⊢
    cases hstop : p.stop with
    | some f =>
      simp only [hstop] at hp
      cases hp
    | none =>
      simp only [hstop] at hp ⊢
      refine ⟨trivial, fun rest => ?_⟩
      cases htake : p.copying.take route task with
      | mk c r =>
      cases r with
      | error f =>
        simp only [htake] at hp
        cases hp
      | ok more =>
        simp only [htake] at hp ⊢
        obtain ⟨hmore, hrest⟩ := ih _ hp
        obtain ⟨-, hfirst⟩ := hbelow _ _ hmore
        have hchain := (hfirst (tasks ++ rest)).trans (hrest rest)
        exact .head (.take htake) hchain

theorem isChain_takeAll (route : Route) (levels : Nat) :
    IsChain route (takeAll route levels) := by
  induction levels with
  | zero =>
    intro tasks p hp
    cases tasks with
    | nil => exact ⟨hp, fun rest => .refl⟩
    | cons task tasks => cases hp
  | succ levels ih => exact isChain_takeEach ih

theorem copies_of_finish {route : Route} {tasks : List Task} {d : Disk}
    (h : (finish route tasks d).stop = none) :
    Copies route (d, tasks) ((finish route tasks d).copying.disk, []) := by
  have hchain := (isChain_takeAll route Disk.pathLimit tasks _ h).2 []
  rwa [List.append_nil] at hchain

end Copying

theorem Underway.copies {root : Place} {route : Route} {d d' : Disk} {tasks tasks' : List Task}
    (h : Underway root route.dest d tasks) (hc : Copies route (d, tasks) (d', tasks')) :
    Underway root route.dest d' tasks' ∧ d.root.SameOff root d'.root ∧ d'.cwd = d.cwd := by
  generalize hs : (d, tasks) = s at hc
  generalize hs' : (d', tasks') = s' at hc
  induction hc generalizing d' tasks' with
  | refl =>
    obtain ⟨rfl, rfl⟩ := Prod.mk.inj (hs.trans hs'.symm)
    exact ⟨h, .refl, rfl⟩
  | @tail s1 s2 _ hstep ih =>
    cases hstep with
    | @take c c' task more rest htake =>
      obtain ⟨rfl, rfl⟩ := Prod.mk.inj hs'
      obtain ⟨hu, hoff, hcwd⟩ := ih rfl
      have heffect := Copying.effect_of_take hu.sound hu.leads
        (hu.ready task List.mem_cons_self) htake
      obtain ⟨hu', hoff', hcwd'⟩ := hu.step heffect
      exact ⟨hu', hoff.trans hoff', hcwd'.trans hcwd⟩

theorem copies_of_replicate {d d' : Disk} {source dest : Bytes} {stats : Stats}
    (h : replicate d source dest = (d', .ok stats)) :
    ∃ tasks, Copying.tasks d source = .ok tasks ∧ Copies ⟨source, dest⟩ (d, tasks) (d', []) := by
  rw [replicate] at h
  cases ht : Copying.tasks d source with
  | error f =>
    simp only [ht] at h
    cases h
  | ok tasks =>
    simp only [ht] at h
    have hc : (Copying.finish ⟨source, dest⟩ tasks d).stop = none → Copies ⟨source, dest⟩ (d, tasks)
        ((Copying.finish ⟨source, dest⟩ tasks d).copying.disk, []) := Copying.copies_of_finish
    refine ⟨tasks, rfl, ?_⟩
    revert h hc
    obtain ⟨c, taken, stop⟩ := Copying.finish ⟨source, dest⟩ tasks d
    cases stop with
    | some f => intro h; cases h
    | none =>
      intro h hc
      obtain ⟨rfl, -⟩ := Prod.mk.inj h
      exact hc rfl

end Depot.Archive
