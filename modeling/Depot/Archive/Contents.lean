import Depot.Archive.Hash
import Depot.Files.Disk
import Depot.Path.Relative
import Depot.Process.Command

/-! Reading a published archive, and running commands in it. -/

namespace Depot

/-- A published archive and the directory that holds it. -/
structure Archive where
  hash : ArchiveHash
  root : Bytes
  deriving DecidableEq, Repr

namespace Archive

open Files

/-- The contents of a file of the archive; nothing if there is no such file. -/
def read (a : Archive) (d : Disk) (path : String) : Except Failure (Option Bytes) := do
  let normal ← Path.normalize path
  if normal = "." then throw (.pathInvalid (Utf8.ofString path) "is the archive root")
  let full := Path.join a.root (Utf8.ofString normal)
  match d.stat full with
  | .error .notFound => return none
  | .error e => throw (.ofErrno ("inspecting " ++ Utf8.toStringLossy full) e)
  | .ok node =>
    if node.isDir then throw (.pathInvalid (Utf8.ofString path) "is a directory")
    match d.read full with
    | .ok data => return some data
    | .error .notFound => return none
    | .error e => throw (.ofErrno ("reading " ++ Utf8.toStringLossy full) e)

def placeText (place : Place) : String :=
  String.ofList (joinWith ['/'] (place.map Utf8.lossy))

/-- The paths of everything in the archive that is no directory. -/
def files (a : Archive) (d : Disk) : Except Failure (List String) :=
  let failed (e : Errno) := Failure.ofErrno ("listing " ++ Utf8.toStringLossy a.root) e
  match d.stat a.root with
  | .error e => .error (failed e)
  | .ok node =>
    if node.beneath.any fun entry =>
        entry.2.isDir && (Path.below a.root entry.1).length > Disk.pathLimit then
      .error (failed .nameTooLong)
    else
      .ok ((node.beneath.filter fun entry => !entry.2.isDir).map fun entry => placeText entry.1)

/-- Runs a command in the root of the archive and gives its output. -/
def exec [Host] (a : Archive) (env : Environment) (d : Disk) (words : List String) :
    Disk × Except Failure String :=
  match words.map Utf8.ofString with
  | [] => (d, .error .emptyCommand)
  | program :: args => Host.output env d ⟨program, args, some a.root⟩

end Archive

end Depot
