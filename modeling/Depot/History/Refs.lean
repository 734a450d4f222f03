import Depot.Files.Disk
import Depot.History.RefName
import Depot.Pairs
import Depot.Text.Utf8

/-!
The refs of a repository. A ref has a file of its own, which holds the id of a commit or the name of
another ref; or it stands in the list of packed refs.
-/

namespace Depot.Refs

open Files

inductive Value where
  | commit (id : Octets)
  /-- The value of another ref. -/
  | symbolic (name : Octets)
  deriving DecidableEq, Repr

/-- Why a ref has no value. -/
inductive Lack where
  | missing | directory | broken
  /-- The line for it in the list of packed refs has no id. -/
  | damaged
  deriving DecidableEq, Repr

/-- The list of packed refs cannot be used. -/
inductive Damage where
  | packedList
  deriving DecidableEq, Repr

def idLength : Nat := 40

def leadingId? (cs : Octets) : Option Octets :=
  let id := cs.take idLength
  if id.length = idLength ∧ id.all (fun c => (Hex.value? c).isSome) then some (id.map Char.toLower)
  else none

/-- The id that no commit has. -/
def nullId : Octets := List.replicate idLength '0'

def parse (data : Bytes) : Except Lack Value :=
  let cs := ((Octets.ofBytes data).reverse.dropWhile isGap).reverse.takeWhile (· ≠ '\x00')
  if (octets "ref:").isPrefixOf cs then .ok (.symbolic (dropGap (cs.drop 4)))
  else match leadingId? cs with
    | some id => if ((cs.drop idLength).head?.map isGap).getD true then .ok (.commit id)
      else .error .broken
    | none => .error .broken

/-- The value of a ref in its own file. A link to the name of a ref stands for that ref. -/
def readLoose (d : Disk) (repo : Bytes) (name : Octets) : Except Lack Value :=
  let path := Path.join repo (Octets.toBytes name)
  match d.lstat path with
  | .error .notFound => .error .missing
  | .error _ => .error .broken
  | .ok (.dir ..) => .error .directory
  | .ok node =>
    let follow := match d.read path with
      | .ok data => parse data
      | .error _ => .error .broken
    match node with
    | .link target =>
      let name := Octets.ofBytes target
      if (octets "refs/").isPrefixOf name ∧ RefName.isValid name then .ok (.symbolic name)
      else follow
    | _ => follow

def packedName : Name := Utf8.ofString "packed-refs"

/-- A line of the list of packed refs, and the line that adds to it. -/
structure Packed where
  line : Octets
  addition : Option Octets
  deriving DecidableEq, Repr

namespace Packed

/-- The name in a line is what comes after an id and a blank. -/
def name (p : Packed) : Octets := p.line.drop (idLength + 1)

def id? (p : Packed) : Option Octets := leadingId? p.line

def isSound (p : Packed) : Bool :=
  p.id?.isSome && (p.line[idLength]?.map isGap).getD false &&
    (RefName.isValid p.name || RefName.isHarmless p.name) &&
    p.addition.all fun line => line.length = idLength + 1 && (leadingId? line.tail).isSome

/-- The lines of a list. One that begins with `^` adds to the line before. -/
def ofLines : List Octets → Except Damage (List Packed)
  | [] => .ok []
  | [line] => if line.length < idLength + 2 then throw .packedList else return [⟨line, none⟩]
  | line :: next :: rest =>
    if line.length < idLength + 2 then throw .packedList
    else if next.head? = some '^' then do return ⟨line, some next⟩ :: (← ofLines rest)
    else do return ⟨line, none⟩ :: (← ofLines (next :: rest))

/-- The list of packed refs in the order of their names. -/
def load (d : Disk) (repo : Bytes) : Except Damage (List Packed) :=
  match d.read (Path.below repo [packedName]) with
  | .error .notFound | .error .notDirectory => .ok []
  | .error _ => .error .packedList
  | .ok data =>
    let lines := splitAtSep '\n' (Octets.ofBytes data)
    if lines.getLast? ≠ some [] then .error .packedList
    else do
      let lines ← match lines.dropLast with
        | [] => pure []
        | first :: rest =>
          if first.head? ≠ some '#' then pure (first :: rest)
          else if (octets "# pack-refs with:").isPrefixOf first then pure rest
          else throw .packedList
      return (← ofLines lines).mergeSort fun x y => !decide (y.name < x.name)

end Packed

/-- The refs of a repository. -/
structure Table where
  disk : Disk
  repo : Bytes
  packed : List Packed

def table (d : Disk) (repo : Bytes) : Except Damage Table := do
  return ⟨d, repo, ← Packed.load d repo⟩

namespace Table

/-- The value of a ref in the list of packed refs. -/
def packedValue (t : Table) (lack : Lack) (name : Octets) : Except Lack Value :=
  match t.packed.find? fun p => p.name = name with
  | none => .error lack
  | some p => match p.id? with
    | some id => .ok (.commit id)
    | none => .error .damaged

/-- The value of a ref, not followed. -/
def value (t : Table) (name : Octets) : Except Lack Value :=
  match readLoose t.disk t.repo name with
  | .error .missing => t.packedValue .missing name
  | .error .directory => t.packedValue .directory name
  | result => result

def linkLimit : Nat := 5

/-- Follows refs to refs up to an id. -/
def follow (t : Table) : Nat → Octets → Except Lack Octets
  | 0, _ => .error .broken
  | links + 1, name =>
    if !RefName.isValid name then .error .broken
    else do
      match ← t.value name with
      | .commit id => return id
      | .symbolic next => t.follow links next

def id? (t : Table) (name : Octets) : Except Damage (Option Octets) :=
  match t.follow linkLimit name with
  | .ok id => .ok (some id)
  | .error .damaged => .error .packedList
  | .error _ => .ok none

/-- The first of several names that stands for an id, and the id. -/
def first? (t : Table) : List Octets → Except Damage (Option (Octets × Octets))
  | [] => .ok none
  | name :: rest => do
    match ← t.id? name with
    | some id => return some (name, id)
    | none => t.first? rest

/-- Follows refs to refs up to the one that has, or would have, an id. -/
def target? (t : Table) : Nat → Octets → Option Octets
  | 0, _ => none
  | links + 1, name =>
    if !RefName.isValid name then none
    else match t.value name with
      | .ok (.symbolic next) => t.target? links next
      | _ => some name

/-- All packed refs are what they should be. -/
def isSound (t : Table) : Bool := t.packed.all Packed.isSound

/-- The refs with files in a directory and below it, and whether they have a value. -/
def looseNames (t : Table) : Nat → Octets → Except Damage (List (Octets × Bool))
  | 0, _ => .ok []
  | depth + 1, dir =>
    match t.disk.names (Path.join t.repo (Octets.toBytes dir)) with
    | .error _ => .ok []
    | .ok names => do
      let found ← names.mapM fun n => do
        let own := Octets.ofBytes n
        let name := dir ++ '/' :: own
        if own.head? = some '.' ∨ (octets ".lock").isSuffixOf own then return []
        match t.disk.stat (Path.join t.repo (Octets.toBytes name)) with
        | .error _ => return []
        | .ok (.dir ..) => t.looseNames depth name
        | .ok _ => return [(name, (← t.id? name).any (· ≠ nullId))]
      return found.flatten

/-- The packed refs below `dir`, if they and the one after them are sound. -/
def packedNames (dir : Octets) : List Packed → Except Damage (List Octets)
  | [] => .ok []
  | p :: rest =>
    if !p.isSound then .error .packedList
    else if (dir ++ ['/']).isPrefixOf p.name then do
      let names ← packedNames dir rest
      return if RefName.isValid p.name then p.name :: names else names
    else .ok []

/-- The refs below `dir` that have a value, in the order of their names. -/
def names (t : Table) (dir : Octets) : Except Damage (List Octets) := do
  let loose ← t.looseNames Disk.pathLimit dir
  let packed ← packedNames dir (t.packed.dropWhile fun p => p.name < dir ++ ['/'])
  return ((loose.filter (·.2)).map (·.1) ++
    packed.filter fun name => (assoc? name loose).isNone).mergeSort fun x y => !decide (y < x)

end Table

/-- Removes empty directories from the one at a path upwards, as long as they lie below `dir`. -/
def pruneUp (d : Disk) (dir : Bytes) : Nat → Bytes → Disk
  | 0, _ => d
  | depth + 1, path =>
    if path.length ≤ dir.length then d
    else match d.lstat path with
      | .ok (.dir _ []) =>
        let d := (d.remove path).toOption.getD d
        ((Path.parent? path).map (pruneUp d dir depth)).getD d
      | _ => d

def isEmptyBelow (node : Node) : Bool := node.beneath.all fun e => e.2.isDir

/-- Gives a ref an id. -/
def write (d : Disk) (repo : Bytes) (name id : Octets) : Option Disk := do
  let path := Path.join repo (Octets.toBytes name)
  let d ← (d.makeDirs (← Path.parent? path)).toOption
  let d ← match d.lstat path with
    | .ok (.dir mode es) =>
      if isEmptyBelow (.dir mode es) then (d.remove path).toOption else none
    | .ok _ => (d.remove path).toOption
    | .error _ => some d
  (d.write path (Octets.toBytes (id ++ ['\n']))).toOption

def packedText (refs : List Packed) : Octets :=
  octets "# pack-refs with: peeled fully-peeled sorted \n" ++
    refs.flatMap fun p => p.line ++ '\n' :: (p.addition.map (· ++ ['\n'])).getD []

/-- Removes a ref, and the directories that are empty without it. -/
def remove (t : Table) (name : Octets) : Disk :=
  let path := Path.join t.repo (Octets.toBytes name)
  let d := match t.disk.lstat path with
    | .ok (.dir ..) | .error _ => t.disk
    | .ok _ => (t.disk.remove path).toOption.getD t.disk
  let kept := t.packed.filter fun p => p.name ≠ name
  let d := if kept = t.packed then d
    else (d.write (Path.below t.repo [packedName]) (Octets.toBytes (packedText kept))).toOption.getD d
  let heads := Path.join t.repo (Utf8.ofString "refs/heads")
  ((Path.parent? path).map (pruneUp d heads name.length)).getD d

/-- Gives the ref that a name leads to an id, or removes it. Nothing changes if that cannot be. -/
def set (d : Disk) (repo : Bytes) (name : Octets) (id? : Option Octets) : Disk :=
  match table d repo with
  | .error _ => d
  | .ok t =>
    match t.target? Table.linkLimit name, id? with
    | none, _ => d
    | some name, some id => (write d repo name id).getD d
    | some name, none => remove t name

end Depot.Refs
