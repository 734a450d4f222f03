import Depot.Digest.Sha1
import Depot.Files.Disk
import Depot.Text.Utf8

/-!
The objects of a repository: contents of files, directories and commits. Each is named by a hash and
has a file of its own; a repository may share the objects of others.
-/

namespace Depot.Objects

open Files

/-- The hash of an object: of its kind, its length and its data. -/
def digest (kind : String) (data : Bytes) : Bytes :=
  Sha1.digest (Utf8.ofString (kind ++ " " ++ toString data.length) ++ 0 :: data)

def nameOf (digest : Bytes) : Octets := Hex.encode digest

/-- An object as the directory that holds it knows it. -/
structure Stored where
  mode : String
  digest : Bytes
  /-- The names of the object and of all that it holds. -/
  names : List Octets

def leaf (mode : String) (data : Bytes) : Stored :=
  let digest := digest "blob" data
  ⟨mode, digest, [nameOf digest]⟩

def directoryMode : String := "40000"

/-- What a directory is sorted by: a name that is itself a directory counts as if a slash followed. -/
def sortKey (row : Name × Stored) : Name :=
  if row.2.mode = directoryMode then row.1 ++ [Path.slash] else row.1

def directory (rows : List (Name × Stored)) : Stored :=
  let rows := rows.mergeSort fun x y => !decide (sortKey y < sortKey x)
  let digest := digest "tree" (rows.flatMap fun row =>
    Utf8.ofString (row.2.mode ++ " ") ++ row.1 ++ 0 :: row.2.digest)
  ⟨directoryMode, digest, nameOf digest :: rows.flatMap fun row => row.2.names⟩

mutual

def ofNode : Node → Stored
  | .file mode data => leaf (if mode &&& 0o111 = 0 then "100644" else "100755") data
  | .link target => leaf "120000" target
  | .special _ => leaf "100644" []
  | .dir _ es => directory (rowsOf es)

def rowsOf : Entries → List (Name × Stored)
  | [] => []
  | (name, node) :: rest => (name, ofNode node) :: rowsOf rest

end

/-- The names of all objects of a tree. -/
def ofTree (tree : Entries) : List Octets := (directory (rowsOf tree)).names

def objectsName : Name := Utf8.ofString "objects"

def path (objects : Bytes) (name : Octets) : Bytes :=
  Path.below objects [Octets.toBytes (name.take 2), Octets.toBytes (name.drop 2)]

/-- The directories of objects that a directory of objects shares. -/
def shared (d : Disk) (objects : Bytes) : List Bytes :=
  match d.read (Path.below objects [Utf8.ofString "info", Utf8.ofString "alternates"]) with
  | .ok data =>
    ((splitAtSep '\n' (Octets.ofBytes data)).filter fun line =>
      line ≠ [] && line.head? ≠ some '#').map fun line => Path.join objects (Octets.toBytes line)
  | .error _ => []

def sharingLimit : Nat := 6

/-- Which of the named objects cannot be found. -/
def missing (d : Disk) : Nat → List Bytes → List Octets → List Octets
  | 0, _, names => names
  | _, [], names => names
  | depth + 1, places, names =>
    let names := names.filter fun name => !places.any fun objects => d.doesExist (path objects name)
    if names = [] then []
    else missing d depth (places.flatMap (shared d)) names

/-- A repository has all of the named objects. -/
def areIn (d : Disk) (repo : Bytes) (names : List Octets) : Bool :=
  missing d sharingLimit [Path.below repo [objectsName]] names = []

/-- Keeps objects. What is in them is known elsewhere. -/
def store (d : Disk) (repo : Bytes) (names : List Octets) : Disk :=
  names.foldl (fun d name =>
    let path := path (Path.below repo [objectsName]) name
    match (Path.parent? path).bind fun dir => (d.makeDirs dir).toOption with
    | some d => if d.doesExist path then d else (d.write path [] 0o444).toOption.getD d
    | none => d) d

end Depot.Objects
