import Depot.Archive.Hash
import Depot.Archive.TarStream
import Depot.Digest.Sha256
import Depot.Files.Disk

/-!
The content hash of a tree: the SHA-256 digest of its archive stream. Entries come depth first,
siblings in the byte order of their names, and the root itself is left out.
-/

namespace Depot.Fingerprint

open Files

/-- A file counts as executable if anybody may run it. -/
def isExecutable (mode : Nat) : Bool := mode &&& 0o111 ≠ 0

def item (root : Bytes) (place : Place) (node : Node) : Except Failure Tar.Item := do
  let name := joinWith [Path.slash] place
  let path := Path.below root place
  if place.any fun n => !decide (Utf8.IsValid n) then
    throw (.pathInvalid name "file name is not valid UTF-8")
  if path.length > Disk.pathLimit then
    throw (.ofErrno ("reading metadata of " ++ Utf8.toStringLossy path) .nameTooLong)
  match node with
  | .dir .. => return .directory name
  | .file mode _ =>
    match Disk.contents node with
    | .ok data => return .file name (isExecutable mode) data
    | .error e => throw (.ofErrno ("opening " ++ Utf8.toStringLossy path) e)
  | .link target => return .link name target
  | .special _ => throw (.pathInvalid path "only files, directories and symlinks can be archived")

def items (d : Disk) (root : Bytes) : Except Failure (List Tar.Item) :=
  match d.stat root with
  | .error e => .error (.ofErrno ("walking " ++ Utf8.toStringLossy root) e)
  | .ok node => node.beneath.mapM fun entry => item root entry.1 entry.2

def ofItems (items : List Tar.Item) : ArchiveHash :=
  .ofDigest (Sha256.digest (Tar.stream items))

/-- The hash of the tree at `root`. Links are archived as links. -/
def ofTree (d : Disk) (root : Bytes) : Except Failure ArchiveHash :=
  ofItems <$> items d root

end Depot.Fingerprint
