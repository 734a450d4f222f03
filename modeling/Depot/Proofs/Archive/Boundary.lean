import Depot.Proofs.Archive.Ending
import Depot.Proofs.Archive.Likeness

/-!
Where a copy writes. Whatever the tree holds and however the copy ends, each task adds at most one
node, below the directory that is filled and in a directory that was made there before. So no link
that was copied is ever written through, and all that was there before stays as it was.
-/

namespace Depot.Archive

open Files

/-- A node is put where nothing was, and all that leads to it from `top` are directories. -/
structure Adds (top : Place) (d : Disk) (place : Place) (node : Node) (d' : Disk) : Prop where
  free : d.root.get? (top ++ place) = none
  dirs : ∀ above, above <+: place → above ≠ place → d.root.IsDirAt (top ++ above)
  put : d' = d.put (top ++ place) node

/-- What lies outside a directory, and the directory itself but for its entries. -/
def IsOutside (top place : Place) : Prop := place = top ∨ ¬ top <+: place

section
variable {route : Route} {top : Place} {c : Copying} {task : Task} {rest : List Task}
  (hu : Underway top route.dest c.disk (task :: rest))
include hu

theorem Copying.adds_of_take :
    (c.take route task).1.disk = c.disk ∨
      ∃ node, Adds top c.disk task.target node (c.take route task).1.disk := by
  have hr := hu.ready task List.mem_cons_self
  have hadds : ∀ node, Adds top c.disk task.target node (c.disk.put (top ++ task.target) node) := by
    refine fun node => ⟨hr.free, fun above habove hne => ?_, rfl⟩
    rw [← List.dropLast_concat_getLast hr.ne_nil] at habove hne
    have hprefix := (List.prefix_concat_iff.mp habove).resolve_left hne
    exact hr.dir.of_prefix ((List.prefix_append_right_inj top).mpr hprefix)
  generalize htake : c.take route task = taken
  obtain ⟨c', r⟩ := taken
  have heffect := Copying.effect_of_take hu.sound hu.leads hr htake
  dsimp only
  generalize c'.disk = d' at heffect
  cases heffect with
  | failed | skipped => exact .inl rfl
  | unlisted => exact .inr ⟨_, hadds _⟩
  | kept => exact .inr ⟨_, hadds _⟩
  | filled => exact .inr ⟨_, hadds _⟩
  | opened => exact .inr ⟨_, hadds _⟩

/-- Whether it fails or not, a task leaves all as it is outside of the directory to fill. -/
theorem Copying.look_take {place : Place} (hout : IsOutside top place) :
    (c.take route task).1.disk.root.look place = c.disk.root.look place := by
  rcases Copying.adds_of_take hu with heq | ⟨node, hadds⟩
  · rw [heq]
  · rw [hadds.put]
    refine hu.look_put node fun hp => ?_
    rcases hout with rfl | hoff
    · have hlength := hp.length_le
      rw [List.length_append] at hlength
      have hne := (hu.ready task List.mem_cons_self).ne_nil
      exact hne (List.length_eq_zero_iff.mp (by omega))
    · exact hoff ((List.prefix_append _ _).trans hp)

end

/-- All tasks together leave what is outside as it is. -/
theorem Underway.look_copies {route : Route} {top place : Place} {d d' : Disk}
    {tasks tasks' : List Task} (h : Underway top route.dest d tasks) (hout : IsOutside top place)
    (hc : Copies route (d, tasks) (d', tasks')) : d'.root.look place = d.root.look place := by
  generalize hs : (d, tasks) = s at hc
  generalize hs' : (d', tasks') = s' at hc
  induction hc generalizing d' tasks' with
  | refl =>
    obtain ⟨rfl, rfl⟩ := Prod.mk.inj (hs.trans hs'.symm)
    rfl
  | @tail s₁ s₂ hfirst hstep ih =>
    subst hs
    cases hstep with
    | @take c c' task more rest htake =>
      obtain ⟨rfl, rfl⟩ := Prod.mk.inj hs'
      have hu := (h.copies hfirst).1
      have hlook := Copying.look_take hu hout
      rw [htake] at hlook
      exact hlook.trans (ih rfl)

/-- A copy into an empty directory, of whatever tree and however it ends, leaves everything outside as
it was. Each of its tasks adds at most one node, and reaches the place of the node through directories
alone, which the copy has made itself since there were none. -/
theorem replicate_adds_below {d d' : Disk} {source dest : Bytes} {r : Except Failure Stats}
    {top : Place} {mode : Nat} (hs : d.root.IsSound)
    (hdest : d.locate dest = .ok (top, .dir mode [])) (h : replicate d source dest = (d', r)) :
    d'.cwd = d.cwd ∧ (∀ place, IsOutside top place → d'.root.look place = d.root.look place) ∧
      Finishes d ⟨source, dest⟩ d' r ∧
      ∀ (ts : List Task) (c : Copying) (task : Task) (rest : List Task),
        Copying.tasks d source = .ok ts → Copies ⟨source, dest⟩ (d, ts) (c.disk, task :: rest) →
          (c.take ⟨source, dest⟩ task).1.disk = c.disk ∨
            ∃ node, Adds top c.disk task.target node (c.take ⟨source, dest⟩ task).1.disk := by
  have hstart : ∀ {ts}, Copying.tasks d source = .ok ts → Underway top dest d ts :=
    .of_tasks hs (Disk.leadsTo_of_locate hdest) (Disk.get?_of_locate_ok hdest)
  have hends : Finishes d ⟨source, dest⟩ d' r := by
    have hfinishes := replicate_finishes source hs hdest
    rwa [h] at hfinishes
  have hstep : ∀ {ts : List Task} {c : Copying} {task : Task} {rest : List Task},
      Copying.tasks d source = .ok ts → Copies ⟨source, dest⟩ (d, ts) (c.disk, task :: rest) →
        Underway top (Route.mk source dest).dest c.disk (task :: rest) :=
    fun ht hc => ((hstart ht).copies hc).1
  refine ⟨?_, fun place hout => ?_, hends, fun ts c task rest ht hc =>
    Copying.adds_of_take (hstep ht hc)⟩
  · cases hends with
    | unlisted => rfl
    | done _ ht hc => exact ((hstart ht).copies hc).2.2
    | failed ht hbreaks =>
      obtain ⟨c, task, rest, hc, htake⟩ := hbreaks
      have hadds := Copying.adds_of_take (hstep ht hc)
      rw [htake] at hadds
      refine Eq.trans ?_ ((hstart ht).copies hc).2.2
      rcases hadds with heq | ⟨node, hadds⟩
      · rw [heq]
      · rw [hadds.put]
        rfl
  · cases hends with
    | unlisted => rfl
    | done _ ht hc => exact (hstart ht).look_copies hout hc
    | failed ht hbreaks =>
      obtain ⟨c, task, rest, hc, htake⟩ := hbreaks
      have hlook := Copying.look_take (hstep ht hc) hout
      rw [htake] at hlook
      exact hlook.trans ((hstart ht).look_copies hout hc)

/-- A link that was kept leads through a link that is replaced after it, and out of the copy. Still
nothing else was written to. -/
theorem replicate_adds_below_straying :
    ∃ d', replicate straying [0x2F, 0x73] [0x2F, 0x64] = (d', .ok ⟨1, 1, 1⟩) ∧
      d'.root.look [[0x64], [0x6C]] = some (.link [0x6D, 0x2F, 0x2E, 0x2E, 0x2F, 0x66]) ∧
      ∀ place, IsOutside [[0x64]] place → d'.root.look place = straying.root.look place := by
  obtain ⟨d', hd'⟩ : ∃ d', replicate straying [0x2F, 0x73] [0x2F, 0x64] = (d', .ok ⟨1, 1, 1⟩) :=
    ⟨_, rfl⟩
  refine ⟨d', hd', ?_, ?_⟩
  · obtain rfl := (Prod.mk.inj hd').1
    rfl
  · have hdest : straying.locate [0x2F, 0x64] = .ok ([[0x64]], .dir 0o755 []) := rfl
    exact (replicate_adds_below isSound_straying hdest hd').2.1

end Depot.Archive
