import Depot.Failure
import Depot.Text.Lines

/-!
Relative paths inside a repository or an archive. Empty and `.` parts mean nothing and are dropped;
what is left, joined by `/`, is the normal form, and the root is written `.`.
-/

namespace Depot.Path

/-- Why a text is no relative path. -/
inductive Fault where
  | absolute | nul | parent
  deriving DecidableEq, Repr

def Fault.reason : Fault → String
  | .absolute => "must be relative"
  | .nul => "must not contain NUL"
  | .parent => "must not contain '..'"

def names (cs : List Char) : List (List Char) :=
  (splitAtSep '/' cs).filter fun part => part ≠ [] ∧ part ≠ ['.']

def ofNames : List (List Char) → List Char
  | [] => ['.']
  | parts => joinWith ['/'] parts

def fault? (cs : List Char) : Option Fault :=
  if cs.head? = some '/' then some .absolute
  else if '\x00' ∈ cs then some .nul
  else if (splitAtSep '/' cs).contains ['.', '.'] then some .parent
  else none

def normalize? (cs : List Char) : Except Fault (List Char) :=
  match fault? cs with
  | some fault => .error fault
  | none => .ok (ofNames (names cs))

def normalize (path : String) : Except Failure String :=
  match normalize? path.toList with
  | .error fault => .error (.pathInvalid (Utf8.ofString path) fault.reason)
  | .ok cs => .ok (String.ofList cs)

end Depot.Path
