import Depot.Checkout.Site
import Depot.Failure

/-! Directories and places in them that a checkout needs. -/

namespace Depot.Workspace

open Files

/-- Makes directories in order, up to the first that cannot be made. -/
def ensure (d : Disk) : List Bytes → Disk × Except Failure Unit
  | [] => (d, .ok ())
  | dir :: dirs =>
    match d.makeDirs dir with
    | .ok d => ensure d dirs
    | .error e => (d, .error (.ofErrno ("creating directory " ++ Utf8.toStringLossy dir) e))

/-- Finds a path of a checked-out tree, links followed; nothing if it is missing or no directory. -/
def subtree? (d : Disk) (checkout : Bytes) (path : String) : Except Failure (Option Bytes) :=
  match d.resolve checkout with
  | .error e => .error (.ofErrno ("resolving " ++ Utf8.toStringLossy checkout) e)
  | .ok (root, _) =>
    let candidate := Path.join (Disk.pathOf root) (Utf8.ofString path)
    match d.resolve candidate with
    | .error .notFound => .ok none
    | .error e => .error (.ofErrno ("resolving " ++ Utf8.toStringLossy candidate) e)
    | .ok (place, node) => .ok (if node.isDir then some (Disk.pathOf place) else none)

/-- Moves a finished archive to where it is published. One that is there already is kept. -/
def publish (d : Disk) (workspace dest : Bytes) : Disk × Except Failure Unit :=
  match d.rename workspace dest with
  | .ok d => (d, .ok ())
  | .error e =>
    if d.doesExist dest then (d, .ok ())
    else (d, .error (.ofErrno ("publishing " ++ Utf8.toStringLossy workspace ++ " to " ++
      Utf8.toStringLossy dest) e))

end Depot.Workspace
