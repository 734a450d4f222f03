import Depot.Text.Lines
import Depot.Text.Utf8

/-!
File-system paths as byte strings. Reading a path part by part keeps a leading `/` or `.` and drops
all other empty and `.` parts.
-/

namespace Depot.Path

def slash : UInt8 := 0x2F

def dot : UInt8 := 0x2E

inductive Component where
  | root | current | parent
  | name (bytes : Bytes)
  deriving DecidableEq, Repr

def Component.bytes : Component → Bytes
  | .root => [slash]
  | .current => [dot]
  | .parent => [dot, dot]
  | .name bytes => bytes

def isAbsolute (path : Bytes) : Bool := path.head? = some slash

/-- The part between two separators; empty parts and `.` say nothing. -/
def Component.ofPart? (part : Bytes) : Option Component :=
  if part = [] ∨ part = [dot] then none
  else if part = [dot, dot] then some .parent
  else some (.name part)

/-- The component that only the start of a path can give. -/
def leading (path : Bytes) : List Component :=
  if isAbsolute path then [.root]
  else if (splitAtSep slash path).head? = some [dot] then [.current]
  else []

def components (path : Bytes) : List Component :=
  leading path ++ (splitAtSep slash path).filterMap Component.ofPart?

def ofComponents : List Component → Bytes
  | .root :: rest => slash :: joinWith [slash] (rest.map Component.bytes)
  | cs => joinWith [slash] (cs.map Component.bytes)

/-- `path` seen from `base`: an absolute path stands alone. -/
def join (base path : Bytes) : Bytes :=
  if isAbsolute path then path
  else if base = [] ∨ base.getLast? = some slash then base ++ path
  else base ++ slash :: path

/-- A place below `base`. An empty place leaves a `/` at the end. -/
def below (base : Bytes) (place : List Bytes) : Bytes := join base (joinWith [slash] place)

/-- The directory that holds a path; nothing for a path without a name at its end. -/
def parent? (path : Bytes) : Option Bytes :=
  match (components path).getLast? with
  | none | some .root => none
  | some _ => some (ofComponents (components path).dropLast)

end Depot.Path
