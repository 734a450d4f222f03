import Depot.Text.Lines
import Depot.Text.Utf8

/-! Names of refs: parts between slashes that no command could take for something else. -/

namespace Depot.RefName

def isForbidden (c : Char) : Bool :=
  c ≤ ' ' || c = '\x7f' || c ∈ ['~', '^', ':', '?', '*', '[', '\\']

def isPart (part : Octets) : Bool :=
  part ≠ [] && part.head? ≠ some '.' && !(octets ".lock").isSuffixOf part &&
    !part.any isForbidden && !occursIn ['.', '.'] part && !occursIn ['@', '\x7b'] part

def isValid (name : Octets) : Bool :=
  name ≠ ['@'] && name.getLast? ≠ some '.' && (splitAtSep '/' name).all isPart

/-- A name that is not valid, but can be told apart from the name of any other file. -/
def isHarmless (name : Octets) : Bool :=
  let parts := splitAtSep '/' name
  if parts.head? = some (octets "refs") ∧ parts.length > 1 then
    parts.tail.all fun part => part ≠ [] && part ≠ ['.'] && part ≠ ['.', '.']
  else name ≠ [] && name.all fun c => c.isUpper || c = '_'

def ofBranch (branch : String) : Octets := octets ("refs/heads/" ++ branch)

/-- The names that a short name may stand for, the likeliest first. -/
def expansions (name : Octets) : List Octets :=
  [name, octets "refs/" ++ name, octets "refs/tags/" ++ name, octets "refs/heads/" ++ name,
    octets "refs/remotes/" ++ name, octets "refs/remotes/" ++ name ++ octets "/HEAD"]

/-- What comes after the last `-g`. -/
def afterMark? : Octets → Option Octets
  | [] => none
  | c :: cs =>
    afterMark? cs <|> if (octets "-g").isPrefixOf (c :: cs) then some (cs.drop 1) else none

/-- The digits that a name describes a commit by: those after its last `-g`. They may start any id. -/
def describing? (name : Octets) : Option Octets :=
  ((afterMark? name).filter fun cs => 4 ≤ cs.length && cs.length ≤ 40 &&
    cs.all fun c => (Hex.value? c).isSome).map fun cs => cs.map Char.toLower

end Depot.RefName
