import Depot.Path.Components

/-!
The archive stream of a tree: a GNU tar stream in which all that depends on who packed the tree, or
when, is fixed. Owners and times are zero, modes are one of three, names are relative.
-/

namespace Depot.Tar

/-- One archived entry. Names and targets are the bytes of paths. -/
inductive Item where
  | directory (name : Bytes)
  | file (name : Bytes) (executable : Bool) (data : Bytes)
  | link (name target : Bytes)
  deriving DecidableEq, Repr

def blockSize : Nat := 512

def nameSize : Nat := 100

def field (width : Nat) (bytes : Bytes) : Bytes :=
  bytes.take width ++ List.replicate (width - bytes.length) 0

/-- The `digits` lowest octal digits of a number. -/
def octalDigits : Nat → Nat → Bytes
  | 0, _ => []
  | digits + 1, n => octalDigits digits (n / 8) ++ [UInt8.ofNat (48 + n % 8)]

/-- A number as octal digits that fill the field but for a NUL at its end. -/
def octal (width n : Nat) : Bytes := octalDigits (width - 1) n ++ [0]

/-- The `digits` lowest bytes of a number, the highest of them first. -/
def bigEndian : Nat → Nat → Bytes
  | 0, _ => []
  | digits + 1, n => bigEndian digits (n / 256) ++ [UInt8.ofNat (n % 256)]

/-- The first number that is too large for the digits of a size field. -/
def sizeLimit : Nat := 0x200000000

/-- The size field. A size that is too large for its digits is written in bytes after a mark. -/
def sizeField (n : Nat) : Bytes :=
  if n < sizeLimit then octal 12 n else [0x80, 0, 0, 0] ++ bigEndian 8 n

/-- Kinds of header, by the byte that tells them. -/
inductive Kind where
  | file | link | directory | longName | longTarget
  deriving DecidableEq, Repr

def Kind.byte : Kind → UInt8
  | .file => 0x30
  | .link => 0x32
  | .directory => 0x35
  | .longName => 0x4C
  | .longTarget => 0x4B

structure Header where
  name : Bytes
  mode : Nat
  size : Nat
  kind : Kind
  target : Bytes

namespace Header

/-- The fields before the checksum: name, mode, owner, group, size and time. -/
def front (h : Header) : Bytes :=
  field nameSize h.name ++ octal 8 h.mode ++ octal 8 0 ++ octal 8 0 ++ sizeField h.size ++ octal 12 0

def magic : Bytes := [0x75, 0x73, 0x74, 0x61, 0x72, 0x20, 0x20, 0]

/-- The fields after the checksum: kind, target, magic word, and 247 bytes that are not used. -/
def back (h : Header) : Bytes :=
  h.kind.byte :: field nameSize h.target ++ magic ++ List.replicate 247 0

/-- The sum of all bytes of the header, those of the checksum itself taken as blanks. -/
def checksum (h : Header) : Nat :=
  (h.front ++ List.replicate 8 0x20 ++ h.back).foldl (fun n (b : UInt8) => n + b.toNat) 0

def bytes (h : Header) : Bytes := h.front ++ octal 8 h.checksum ++ h.back

end Header

def padded (data : Bytes) : Bytes :=
  data ++ List.replicate ((blockSize - data.length % blockSize) % blockSize) 0

/-- An entry that carries a name or target too long for its field. -/
def extension (kind : Kind) (text : Bytes) : Bytes :=
  (Header.mk (Utf8.ofString "././@LongLink") 0o644 (text.length + 1) kind []).bytes ++
    padded (text ++ [0])

/-- The pieces a path is written in: its components, `/` between them, and `/` at the end if the
path ends so. -/
def pieces (path : Bytes) (cs : List Path.Component) : List Bytes :=
  between cs ++ if path.getLast? = some Path.slash then [[Path.slash]] else []
where
  between : List Path.Component → List Bytes
    | [] => []
    | [c] => [c.bytes]
    | c :: cs => c.bytes :: if c = .root then between cs else [Path.slash] :: between cs

/-- The pieces that fit into `room` bytes, up to the first that does not. -/
def fitting : Nat → List Bytes → Bytes
  | _, [] => []
  | room, p :: ps => if p.length ≤ room then p ++ fitting (room - p.length) ps else []

/-- The longest start of a byte string that has at most `n` bytes and whole characters. -/
def cutText (n : Nat) (bytes : Bytes) : Bytes :=
  match (Utf8.decode? bytes) with
  | some cs => go n cs
  | none => bytes.take n
where
  go : Nat → List Char → Bytes
    | _, [] => []
    | room, c :: cs =>
      let size := (String.utf8EncodeChar c).length
      if size ≤ room then String.utf8EncodeChar c ++ go (room - size) cs else []

/-- What the name field holds: the name if it fits, or else its start. -/
def nameField (name : Bytes) : Bytes :=
  if name.length ≤ nameSize then name
  else
    let start := cutText nameSize name
    fitting nameSize (pieces start ((Path.components start).filter (· ≠ .current)))

/-- What the target field holds: the target part by part, as far as it fits. -/
def targetField (target : Bytes) : Bytes :=
  fitting nameSize (pieces target (Path.components target))

/-- The target part by part. -/
def tidyTarget (target : Bytes) : Bytes := (pieces target (Path.components target)).flatten

def longName (name : Bytes) : Bytes :=
  if name.length ≤ nameSize then [] else extension .longName name

def longTarget (target : Bytes) : Bytes :=
  if (tidyTarget target).length ≤ nameSize then [] else extension .longTarget target

namespace Item

def name : Item → Bytes
  | directory name => name
  | file name .. => name
  | link name _ => name

def bytes : Item → Bytes
  | directory name =>
    longName name ++ (Header.mk (nameField name) 0o755 0 .directory []).bytes
  | file name executable data =>
    longName name ++
      (Header.mk (nameField name) (if executable then 0o755 else 0o644) data.length .file []).bytes ++
      padded data
  | link name target =>
    longName name ++ longTarget target ++
      (Header.mk (nameField name) 0o777 0 .link (targetField target)).bytes

end Item

/-- A stream ends with two empty blocks. -/
def ending : Bytes := List.replicate (2 * blockSize) 0

def stream (items : List Item) : Bytes := items.flatMap Item.bytes ++ ending

end Depot.Tar
