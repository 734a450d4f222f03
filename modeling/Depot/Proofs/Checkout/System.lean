import Depot.Proofs.Checkout.Layout
import Depot.Proofs.History.Clone
import Mathlib.Logic.Function.Basic

/-!
Any number of builders over one cache root, each with any number of checkouts, in one world. The
steps of the checkouts come in any order, each of them may fail, and the world outside the cache
root changes as it likes.
-/

namespace Depot

open Files

namespace Phase

/-- The scratch directories that a checkout has. -/
def scratches : Phase → List Bytes
  | clone _ scratch | readHead _ scratch => [scratch]
  | strip build | locate build | openWorkspace build _ => [build.scratch]
  | openSource build route | copy build route _ => [route.dest, build.scratch]
  | hash build workspace | share build workspace _ | publish build workspace _ =>
    [workspace, build.scratch]
  | discard _ scratches _ => scratches
  | _ => []

/-- What is built, from the lock to the published archive. -/
def job? : Phase → Option Job
  | makeDirs job | openScratch job | clone job _ | readHead job _ => some job
  | strip build | locate build | openWorkspace build _ | openSource build _ | copy build _ _
  | hash build _ | share build _ _ | publish build _ _ => some build.job
  | _ => none

/-- Where a checkout is after a step that has failed. -/
def failed? (f : Failure) : Phase → Option Phase
  | start .. | prepare .. | resolve .. => some (done (.error f))
  | p => p.job?.map fun job => discard job p.scratches (.error f)

/-- What a checkout is about to answer, or has answered. -/
def result? : Phase → Option (Except Failure Outcome)
  | discard _ _ result | remember _ result | finish _ result | release result | done result =>
    some result
  | _ => none

end Phase

/-- The disk and the commits are such as they can be, and the cache root is at its seat. -/
structure World.IsSound (site : Site) (seat : Seat) (w : World) : Prop where
  tree : w.disk.root.IsSound
  seat : seat.Holds site w.disk
  commits : w.HasSoundTrees
  undisturbed : w.faults = []

/-- Something else has changed the world, but nothing under the cache root. -/
structure World.SameCache (site : Site) (seat : Seat) (w w' : World) : Prop where
  sound : w'.IsSound site seat
  cwd : w'.disk.cwd = w.disk.cwd
  scratches : w'.scratches = w.scratches
  below : ∀ rest, w'.disk.root.get? (seat.top ++ rest) = w.disk.root.get? (seat.top ++ rest)

/-- Nothing has changed outside some scratch directories. -/
structure Files.Disk.ChangedIn (site : Site) (seat : Seat) (scratches : List Bytes) (d d' : Disk) :
    Prop where
  sound : d'.root.IsSound
  cwd : d'.cwd = d.cwd
  look : ∀ other, (∀ σ : Scratch, σ.path site d.cwd ∈ scratches → ¬ seat.scratch σ <+: other) →
    d'.root.look other = d.root.look other

/-- A world, the builders, and the checkouts that were started, each with its builder. -/
structure System where
  world : World
  builder : Nat → Builder := fun _ => {}
  checkout : Nat → Option (Nat × Phase) := fun _ => none

namespace System

/-- What can happen next. A step that fails may leave anything in the scratch directories of its
checkout, and so may one that fails to remove them. -/
inductive Step (site : Site) (seat : Seat) : System → System → Prop
  | launch {s : System} {me b : Nat} (branch path : String) (h : s.checkout me = none) :
    Step site seat s
      { s with checkout := Function.update s.checkout me (some (b, .start branch path)) }
  | advance {s : System} {me b : Nat} {p p' : Phase} {w' : World} {b' : Builder}
    (h : s.checkout me = some (b, p)) (hstep : p.step site me s.world (s.builder b) = (w', b', p'))
    (hprepare : ∀ branch path, p = .prepare branch path → s.world.SameCache site seat w') :
    Step site seat s
      ⟨w', Function.update s.builder b b', Function.update s.checkout me (some (b, p'))⟩
  | fail {s : System} {me b : Nat} {p p' : Phase} {d' : Disk} (f : Failure)
    (h : s.checkout me = some (b, p)) (hfail : p.failed? f = some p')
    (hleft : s.world.disk.ChangedIn site seat p.scratches d') :
    Step site seat s
      ⟨{ s.world with disk := d' }, s.builder, Function.update s.checkout me (some (b, p'))⟩
  | leave {s : System} {me b : Nat} {job : Job} {scratch : Bytes} {rest : List Bytes}
    {result : Except Failure Outcome} {d' : Disk}
    (h : s.checkout me = some (b, .discard job (scratch :: rest) result))
    (hleft : s.world.disk.ChangedIn site seat [scratch] d') :
    Step site seat s
      ⟨{ s.world with disk := d' }, s.builder,
        Function.update s.checkout me (some (b, .discard job rest result))⟩
  | outside {s : System} {w' : World} (h : s.world.SameCache site seat w') :
    Step site seat s { s with world := w' }

/-- What can happen in any number of steps. -/
abbrev Steps (site : Site) (seat : Seat) : System → System → Prop :=
  Relation.ReflTransGen (Step site seat)

end System

end Depot
