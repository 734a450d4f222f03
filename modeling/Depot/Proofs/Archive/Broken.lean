import Depot.Proofs.Archive.Finiteness
import Depot.Proofs.Files.Failing

/-!
Which links a copy calls broken. A link that is to be replaced stops the copy if its way gets stuck,
and so does a link below a replacement. It is called broken if it got stuck at a name without an
entry, and only then; a file where a directory should be is told as an error of the file system.
-/

namespace Depot.Files

theorem Node.PersistsIn.exists_kind {a b x : Node} {place : Place} (h : a.PersistsIn b)
    (hx : a.get? place = some x) : ∃ y, b.get? place = some y ∧ y.kind = x.kind := by
  have hlook := h place x hx
  rw [Node.look, Node.look, hx] at hlook
  obtain ⟨y, hy, hface⟩ := Option.map_eq_some_iff.mp hlook
  exact ⟨y, hy, by rw [← Node.kind_face, hface, Node.kind_face]⟩

end Depot.Files

namespace Depot.Archive

open Files

/-! ### The order of tasks -/

section
variable {route : Route} {top : Place}

end

/-- The turn of a task comes, with the disk as the copy has made it by then. -/
def Comes (d : Disk) (route : Route) (d₁ : Disk) (task : Task) : Prop :=
  ∃ ts rest, Copying.tasks d route.source = .ok ts ∧ Copies route (d, ts) (d₁, task :: rest)

/-- The entry of a task below a replacement is there, in a directory that the path of its visit leads
to. -/
def Task.IsListed (d : Disk) : Task → Prop
  | .entry _ _ => True
  | .inner v n kind => ∃ here x, (∃ y, d.go true v.path = .ok ⟨here, some y⟩) ∧
      d.root.get? (here ++ [n]) = some x ∧ x.kind = kind

theorem Task.IsListed.mono {d d' : Disk} {task : Task} (h : task.IsListed d) (hcwd : d'.cwd = d.cwd)
    (hpersists : d.root.PersistsIn d'.root) : task.IsListed d' := by
  cases task with
  | entry place kind => trivial
  | inner v n kind =>
    obtain ⟨here, x, hgo, hx, rfl⟩ := h
    obtain ⟨y, hy, hkind⟩ := hpersists.exists_kind hx
    exact ⟨here, y, Disk.go_of_persists hcwd hpersists hgo, hy, hkind⟩

theorem Meets.isListed_child {d : Disk} {source : Bytes} {task : Task} {here : Place} {mode : Nat}
    {es : Entries} (hs : d.root.IsSound) (h : Meets d source task here (.dir mode es))
    {e : Name × Node} (he : e ∈ es) : (task.child here e.1 e.2.kind).IsListed d := by
  have hget := h.reads.get?
  have hentry : d.root.get? (here ++ [e.1]) = some e.2 := by
    rw [Node.get?_append, hget, Option.bind_some, Node.get?_dir_cons,
      (hs.entries _ _ _ hget).find?_of_mem he]
    rfl
  have hreads := h.reads
  cases task with
  | entry place kind =>
    cases kind with
    | directory => trivial
    | link => exact ⟨here, e.2, ⟨_, Disk.go_of_locate_ok (h.named place rfl)⟩, hentry, rfl⟩
    | file => exact absurd ((h.kind (by simp [Task.kind])).mp rfl) (by simp [Task.kind])
    | special => exact absurd rfl (h.special place)
  | inner v m kind => exact ⟨here, e.2, ⟨_, hreads.go⟩, hentry, rfl⟩

theorem isListed_of_take {route : Route} {top : Place} {c c' : Copying} {task : Task}
    {more rest : List Task} (hu : Underway top route.dest c.disk (task :: rest))
    (htake : c.take route task = (c', .ok more)) (h : ∀ t ∈ task :: rest, t.IsListed c.disk) :
    ∀ t ∈ more ++ rest, t.IsListed c'.disk := by
  obtain ⟨hcwd, hpersists⟩ := Copying.persistsIn_take hu
  rw [htake] at hcwd hpersists
  intro t ht
  rcases List.mem_append.mp ht with ht | ht
  · have hr := hu.ready task List.mem_cons_self
    obtain ⟨node?, hprovides, -, -⟩ := (Copying.take_eq_ok_iff hu.sound hu.leads hr).mp htake
    cases hprovides with
    | skipped | kept | filled => cases ht
    | opened hmeets =>
      obtain ⟨e, he, rfl⟩ := List.mem_map.mp ht
      exact (hmeets.isListed_child hu.sound he).mono hcwd hpersists
  · exact (h t (List.mem_cons_of_mem _ ht)).mono hcwd hpersists

theorem isListed_of_copies {route : Route} {top : Place} {d d₁ : Disk} {ts tasks : List Task}
    (hu : Underway top route.dest d ts) (ht : Copying.tasks d route.source = .ok ts)
    (hc : Copies route (d, ts) (d₁, tasks)) : ∀ t ∈ tasks, t.IsListed d₁ := by
  generalize hs : (d₁, tasks) = s at hc
  induction hc generalizing d₁ tasks with
  | refl =>
    cases hs
    rcases Copying.of_tasks_ok ht with rfl | ⟨here, mode, es, -, rfl⟩
    · simp
    · intro t hmem
      obtain ⟨e, -, rfl⟩ := List.mem_map.mp hmem
      trivial
  | @tail s₁ s₂ hfirst hstep ih =>
    cases hstep with
    | @take c c' task more rest htake =>
      cases hs
      exact isListed_of_take (hu.copies hfirst).1 htake (ih rfl)

/-! ### What a task answers that looks through a link -/

/-- A task looks through a link: one of the tree that may not be kept, or one below a replacement.
With it stand the link as a failure names it, and what the link says. -/
inductive Task.Through (d : Disk) (source : Bytes) : Task → Bytes → Bytes → Prop
  | replaced {place : Place} {target : Bytes}
    (ht : d.readLink (Path.below source place) = .ok target)
    (hnot : SafeLink.isSafe place target = false) :
    Through d source (.entry place .link) (joinWith [Path.slash] place) target
  | inner {v : Visit} {n : Name} {target : Bytes} (ht : d.readLink (Path.join v.path n) = .ok target) :
    Through d source (.inner v n .link) (Path.join v.path n) target

section
variable {d : Disk} {source shown target path : Bytes} {task : Task} {e : Errno}

theorem Task.Through.readLink (h : task.Through d source shown target) :
    d.readLink (task.path source) = .ok target := by
  cases h with
  | replaced ht => exact ht
  | inner ht => exact ht

namespace Copying

end Copying

/-- What stands in the directory of a visit is found, unless its path is too long. -/
theorem Task.IsListed.arrives {v : Visit} {n : Name} {kind : Kind} (hn : IsName n)
    (h : (Task.inner v n kind).IsListed d) :
    ∃ here x, d.Arrives v.path here ∧ Spells v.path ([] ++ [n]) (Path.join v.path n) ∧
      d.root.IsDirAt (here ++ []) ∧ d.root.get? (here ++ [] ++ [n]) = some x ∧ x.kind = kind := by
  obtain ⟨here, x, ⟨y, hgo⟩, hx, hkind⟩ := h
  have ha := Disk.arrives_of_go hgo
  have hdir : d.root.IsDirAt here := .of_append (by simp) hx
  refine ⟨here, x, ha, spells_join ha.ne_nil ha.nul hn, ?_, ?_, hkind⟩
  · rwa [List.append_nil]
  · rwa [List.append_nil]

theorem Task.Through.isFollowed (h : task.Through d source shown target) :
    task.IsFollowed d source := by
  cases h with
  | replaced ht hnot => exact ⟨target, ht, hnot⟩
  | inner => trivial

end

/-- What holds when the turn of a task comes: nothing has changed but below the directory that is
filled, and the entry of the task is there. -/
theorem Comes.underway {d d₁ : Disk} {route : Route} {top : Place} {mode : Nat} {task : Task}
    (h : Comes d route d₁ task) (hs : d.root.IsSound)
    (hdest : d.locate route.dest = .ok (top, .dir mode [])) :
    d.root.SameOff top d₁.root ∧ d₁.cwd = d.cwd ∧ task.IsListed d₁ ∧
      ∃ rest, Underway top route.dest d₁ (task :: rest) := by
  obtain ⟨ts, rest, ht, hc⟩ := h
  have hu : Underway top route.dest d ts := .of_tasks hs (Disk.leadsTo_of_locate hdest)
    (Disk.get?_of_locate_ok hdest) ht
  obtain ⟨hu₁, hsame, hcwd⟩ := hu.copies hc
  exact ⟨hsame, hcwd, isListed_of_copies hu ht hc task List.mem_cons_self, rest, hu₁⟩

section
variable {d : Disk} {source dest : Bytes} {top : Place} {mode : Nat} (hs : d.root.IsSound)
  (hdest : d.locate dest = .ok (top, .dir mode []))
include hs hdest

end

end Depot.Archive
