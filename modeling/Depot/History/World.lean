import Depot.History.Commit
import Depot.History.Repository
import Depot.History.Tracked
import Depot.Process.Command

/-!
All that checkouts read and change: the file system, with the repositories in it, and the commits
that were ever made.
-/

namespace Depot

open Files

inductive GitVerb where
  | init | clone | revParse | forEachRef
  deriving DecidableEq, Repr

/-- What happens instead of, or right before, a repository command. -/
inductive Disturbance where
  /-- A branch is moved, or removed, before the command runs. -/
  | move (repo : Bytes) (branch : String) (target : Option CommitId)
  /-- The command does not run, and this is what it seems to leave. -/
  | instead (finished : Finished)
  deriving DecidableEq, Repr

/-- A disturbance of the next command of its kind, or of all of them. -/
structure Fault where
  isOnce : Bool
  disturbance : Disturbance
  deriving DecidableEq, Repr

structure Snapshot where
  tree : Entries
  /-- The names of all objects that are needed to check the tree out. -/
  objects : List Octets

structure World where
  disk : Disk
  commits : List (CommitId × Snapshot) := []
  faults : List (GitVerb × Fault) := []
  /-- The number of scratch directories made so far. -/
  scratches : Nat := 0

namespace World

def moveBranch (w : World) (path : Bytes) (branch : String) (target : Option CommitId) : World :=
  match Repository.find? w.disk path with
  | some dir =>
    let id := target.map fun commit => octets commit.text
    { w with disk := Refs.set w.disk dir (RefName.ofBranch branch) id }
  | none => w

/-- Makes a commit with a tree and puts a branch at it. -/
def push (w : World) (path : Bytes) (branch : String) (tree : Entries) : CommitId × World :=
  let commit := CommitId.numbered (w.commits.length + 1)
  let disk := if (Repository.find? w.disk path).isSome then w.disk else (Repository.make w.disk path).1
  let objects := Objects.ofTree tree
  let disk := match Repository.find? disk path with
    | some dir => Objects.store disk dir (octets commit.text :: objects)
    | none => disk
  let snapshot : Snapshot := ⟨tree, objects⟩
  let w := { w with disk := disk, commits := w.commits ++ [(commit, snapshot)] }
  (commit, w.moveBranch path branch (some commit))

/-- The disturbance of the next command of a kind. -/
def takeFault (w : World) (verb : GitVerb) : Option Disturbance × World :=
  match assoc? verb w.faults with
  | none => (none, w)
  | some fault =>
    (some fault.disturbance,
      if fault.isOnce then { w with faults := assocErase verb w.faults } else w)

/-- Makes a private directory with a name not used before. -/
def makeScratch (w : World) (parent : Bytes) (kind : String) : World × Except Errno Bytes :=
  let number := toString (w.scratches + 1)
  let name := kind ++ String.ofList (List.replicate (6 - number.length) '0') ++ number
  let path := Path.join (Disk.pathOf w.disk.cwd) (Path.join parent (Utf8.ofString name))
  match w.disk.makeDir path 0o700 with
  | .ok disk => ({ w with disk := disk, scratches := w.scratches + 1 }, .ok path)
  | .error e => (w, .error e)

def dropScratch (w : World) (path : Bytes) : World :=
  { w with disk := (w.disk.remove path).toOption.getD w.disk }

end World

end Depot
