import Depot.Files.Errno
import Depot.Files.Node
import Depot.Path.Components

/-!
A file system and the meaning of paths in it. A path is followed one part at a time: a link is
replaced by its target where it stands, `..` leaves the directory really reached, and no more than
forty links are followed.

It is seen by one user, who owns every node and has no privileges: the owner's bits of a file's mode
say what may be done with the file, and data written to a file takes its set-id bits. Directories are
open to their owner, who may list, change and pass through all of them; `openMode` is part of the mode
of every directory, also where the number kept for it leaves it out.
-/

namespace Depot.Files

/-- A file system, seen from a working directory. -/
structure Disk where
  root : Node
  cwd : Place := []

/-- One part of a path on its way. -/
inductive Hop where
  /-- An empty part or `.`: the node reached must be a directory. -/
  | stay
  | up
  | name (n : Name)
  deriving DecidableEq, Repr

def Hop.ofPart (part : Bytes) : Hop :=
  if part = [] ∨ part = [Path.dot] then .stay
  else if part = [Path.dot, Path.dot] then .up
  else .name part

def hops (path : Bytes) : List Hop := (splitAtSep Path.slash path).map Hop.ofPart

/-- Where a path leads, and what is there. Only the last name may lead to nothing. -/
structure Found where
  place : Place
  node : Option Node

def Found.existing (found : Found) : Except Errno (Place × Node) :=
  match found.node with
  | some node => .ok (found.place, node)
  | none => .error .notFound

/-- Where a path has got to: the node there, and the directories above it up to the root, each with
the name of the next one down. -/
structure Trail where
  node : Node
  above : List (Name × Node) := []

namespace Trail

def place (t : Trail) : Place := (t.above.map (·.1)).reverse

/-- The directory above; the root is above itself. -/
def up : Trail → Trail
  | ⟨node, []⟩ => ⟨node, []⟩
  | ⟨_, (_, parent) :: above⟩ => ⟨parent, above⟩

def down (t : Trail) (n : Name) (child : Node) : Trail := ⟨child, (n, t.node) :: t.above⟩

def descend : Place → Trail → Option Trail
  | [], t => some t
  | n :: place, t =>
    match t.node with
    | .dir _ es => (Entries.find? n es).bind fun child => descend place (t.down n child)
    | _ => none

theorem descend_cons {t : Trail} {mode : Nat} {es : Entries} (h : t.node = .dir mode es) (n : Name)
    (place : Place) : descend (n :: place) t =
      (Entries.find? n es).bind fun child => descend place (t.down n child) := by
  rw [descend, h]

end Trail

/-- Follows hops; `jump` takes over where a link is met, with the trail that its target starts from.
The link at the very end is followed if `follow` holds. -/
def travel (root : Node) (follow : Bool) (jump : Trail → List Hop → Except Errno Found) :
    Trail → List Hop → Except Errno Found
  | t, [] => .ok ⟨t.place, some t.node⟩
  | t, hop :: rest =>
    match t.node with
    | .dir _ es =>
      match hop with
      | .stay => travel root follow jump t rest
      | .up => travel root follow jump t.up rest
      | .name n =>
        if n.length > 255 then .error .nameTooLong
        else match Entries.find? n es with
          | none => if rest = [] then .ok ⟨t.place ++ [n], none⟩ else .error .notFound
          | some (.link target) =>
            if rest = [] ∧ !follow then .ok ⟨t.place ++ [n], some (.link target)⟩
            else jump (if Path.isAbsolute target then ⟨root, []⟩ else t) (hops target ++ rest)
          | some child => travel root follow jump (t.down n child) rest
    | _ => .error .notDirectory

/-- Follows hops through at most `links` links. -/
def travelWithin (root : Node) (follow : Bool) : Nat → Trail → List Hop → Except Errno Found
  | 0 => travel root follow fun _ _ => .error .tooManyLinks
  | links + 1 => travel root follow (travelWithin root follow links)

theorem travelWithin_nil (root : Node) (follow : Bool) (links : Nat) (t : Trail) :
    travelWithin root follow links t [] = .ok ⟨t.place, some t.node⟩ := by
  cases links <;> rw [travelWithin, travel]

/-- The most links that are followed on the way of one path. -/
def linkLimit : Nat := 40

namespace Disk

/-- The most bytes of a path that an operation takes. -/
def pathLimit : Nat := 4095

/-- The trail that a path starts from. -/
def start (d : Disk) (path : Bytes) : Except Errno Trail :=
  if Path.isAbsolute path then .ok ⟨d.root, []⟩
  else match Trail.descend d.cwd ⟨d.root, []⟩ with
    | some t => .ok t
    | none => .error .notFound

def go (d : Disk) (follow : Bool) (path : Bytes) : Except Errno Found :=
  if path = [] then .error .notFound
  else if (0 : UInt8) ∈ path then .error .invalid
  else do travelWithin d.root follow linkLimit (← d.start path) (hops path)

def find (d : Disk) (follow : Bool) (path : Bytes) : Except Errno Found :=
  if path.length > pathLimit ∧ (0 : UInt8) ∉ path then .error .nameTooLong else d.go follow path

/-- The node of a path and its place, through links. -/
def locate (d : Disk) (path : Bytes) : Except Errno (Place × Node) :=
  d.find true path >>= Found.existing

/-- The node of a path, through links. -/
def stat (d : Disk) (path : Bytes) : Except Errno Node := (·.2) <$> d.locate path

/-- The node of a path; a link at its end is not followed. -/
def lstat (d : Disk) (path : Bytes) : Except Errno Node :=
  (·.2) <$> (d.find false path >>= Found.existing)

def doesExist (d : Disk) (path : Bytes) : Bool := (d.stat path).toOption.isSome

def isDirectory (d : Disk) (path : Bytes) : Bool :=
  match d.stat path with
  | .ok node => node.isDir
  | .error _ => false

def pathOf (place : Place) : Bytes := Path.slash :: joinWith [Path.slash] place

/-- The node of a path and its place, through links. Names are looked up one by one, so only the
path of the place itself has a limit. -/
def resolve (d : Disk) (path : Bytes) : Except Errno (Place × Node) := do
  let found ← d.go true path >>= Found.existing
  if (pathOf found.1).length > pathLimit then throw .nameTooLong
  return found

def alter (d : Disk) (place : Place) (f : Option Node → Option Node) : Disk :=
  { d with root := (Node.alter f place (some d.root)).getD d.root }

def put (d : Disk) (place : Place) (node : Node) : Disk := d.alter place fun _ => some node

/-- The bits of a mode that its owner needs to read, write and run a file. -/
def ownerRead : Nat := 0o400
def ownerWrite : Nat := 0o200
def ownerRun : Nat := 0o100

/-- The bits of its mode that every directory has. -/
def openMode : Nat := ownerRead ||| ownerWrite ||| ownerRun

/-- The contents of a node that is read as a file. -/
def contents : Node → Except Errno Bytes
  | .file mode data => if mode &&& ownerRead = 0 then .error .denied else .ok data
  | .special .nullDevice => .ok []
  | .special _ => .error .noDevice
  | .dir .. => .error .isDirectory
  | .link _ => .error .tooManyLinks

def read (d : Disk) (path : Bytes) : Except Errno Bytes := d.stat path >>= contents

def readLink (d : Disk) (path : Bytes) : Except Errno Bytes := do
  match ← d.lstat path with
  | .link target => .ok target
  | _ => .error .invalid

/-- A path without the `/` and `.` at its end. -/
def dropStays (path : Bytes) : List Hop :=
  ((hops path).reverse.dropWhile (· = .stay)).reverse

def makeDir (d : Disk) (path : Bytes) (mode : Nat := 0o755) : Except Errno Disk := do
  if path.length > pathLimit then throw .nameTooLong
  if path = [] then throw .notFound
  if (0 : UInt8) ∈ path then throw .invalid
  let found ← travelWithin d.root false linkLimit (← d.start path) (dropStays path)
  match found.node with
  | some _ => .error .exists
  | none => .ok (d.put found.place (.dir mode []))

/-- Makes the directory of a list of components, last one first, and those above it that are
missing. -/
def makeDirsUp (d : Disk) : List Path.Component → Except Errno Disk
  | [] => .error .notFound
  | c :: above =>
    let path := Path.ofComponents (c :: above).reverse
    match d.makeDir path with
    | .ok d => .ok d
    | .error .notFound =>
      if above = [] then if c = .root then .error .notFound else d.makeDir path
      else do
        let d ← d.makeDirsUp above
        match d.makeDir path with
        | .ok d => .ok d
        | .error e => if d.isDirectory path then .ok d else .error e
    | .error e => if d.isDirectory path then .ok d else .error e

/-- Makes a directory and those above it that are missing; one that exists will do. A path that is
too long will not, however short it could be spelled. -/
def makeDirs (d : Disk) (path : Bytes) : Except Errno Disk :=
  if path = [] then .ok d
  else if path.length > pathLimit then .error .nameTooLong
  else d.makeDirsUp (Path.components path).reverse

/-- Puts data into a file, made with `mode` if it is missing. An existing file keeps its mode. -/
def write (d : Disk) (path : Bytes) (data : Bytes) (mode : Nat := 0o644) : Except Errno Disk := do
  let found ← d.find true path
  match found.node with
  | none => .ok (d.put found.place (.file mode data))
  | some (.file old _) =>
    if old &&& ownerWrite = 0 then .error .denied else .ok (d.put found.place (.file old data))
  | some (.special .nullDevice) => .ok d
  | some (.special _) => .error .noDevice
  | some (.dir ..) => .error .isDirectory
  | some (.link _) => .error .tooManyLinks

def setMode (d : Disk) (path : Bytes) (mode : Nat) : Except Errno Disk := do
  let (place, _) ← d.locate path
  return d.alter place fun
    | some (.file _ data) => some (.file mode data)
    | some (.dir _ es) => some (.dir mode es)
    | node? => node?

/-- The mode of a file after data was written to it: nobody takes its owner's part any more, nor
that of its group if the group may run it. -/
def modeAfterWrite (mode : Nat) : Nat :=
  mode - (mode &&& 0o4000) - (if mode &&& 0o010 = 0 then 0 else mode &&& 0o2000)

/-- Copies a regular file with its mode. A file in the way is emptied and then filled, a link there
is written through; so a file copied onto itself loses its data. -/
def copy (d : Disk) (source dest : Bytes) : Except Errno Disk := do
  let (place, node) ← d.locate source
  let data ← contents node
  match node with
  | .file mode _ =>
    let found ← d.find true dest
    let data := if found.place = place then [] else data
    let copied := Node.file (if data = [] then mode else modeAfterWrite mode) data
    match found.node with
    | none => return d.put found.place copied
    | some (.file old _) =>
      if old &&& ownerWrite = 0 then throw .denied else return d.put found.place copied
    | some _ => d.write dest data
  | _ => throw .invalid

def makeLink (d : Disk) (target path : Bytes) : Except Errno Disk := do
  if target = [] then throw .notFound
  if target.length > pathLimit then throw .nameTooLong
  let found ← d.find false path
  match found.node with
  | some _ => .error .exists
  | none => .ok (d.put found.place (.link target))

def makeSpecial (d : Disk) (kind : Special) (path : Bytes) : Except Errno Disk := do
  let found ← d.find false path
  match found.node with
  | some _ => .error .exists
  | none => .ok (d.put found.place (.special kind))

/-- Removes a node with everything below it. -/
def remove (d : Disk) (path : Bytes) : Except Errno Disk := do
  let found ← d.find false path
  match found.node with
  | none => .error .notFound
  | some _ => .ok (d.alter found.place fun _ => none)

/-- Moves a node. Only an empty directory, or a node that is no directory, gives way to it. -/
def rename (d : Disk) (source dest : Bytes) : Except Errno Disk := do
  let (place, node) ← d.find false source >>= Found.existing
  let found ← d.find false dest
  let moved := (d.alter place fun _ => none).put found.place node
  if place <+: found.place ∧ place ≠ found.place then throw .invalid
  match found.node with
  | none => return moved
  | some old =>
    match node, old with
    | .dir .., .dir _ [] => return moved
    | .dir .., .dir .. => throw .notEmpty
    | .dir .., _ => throw .notDirectory
    | _, .dir .. => throw .isDirectory
    | _, _ => return moved

/-- The entries of a directory, in the byte order of their names. -/
def entries (d : Disk) (path : Bytes) : Except Errno (List (Name × Kind)) := do
  match ← d.stat path with
  | .dir _ es => .ok (es.map fun e => (e.1, e.2.kind))
  | _ => .error .notDirectory

def names (d : Disk) (path : Bytes) : Except Errno (List Name) :=
  (fun es => es.map (·.1)) <$> d.entries path

end Disk

end Depot.Files
