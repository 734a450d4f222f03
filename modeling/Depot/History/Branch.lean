import Depot.Failure
import Depot.Text.Lines

/-! Branch names: which texts are names, and where a package location is looked for. -/

namespace Depot.Branch

/-- Why a text is no branch name. -/
inductive Fault where
  | empty | dash | emptyComponent | sequence | character
  deriving DecidableEq, Repr

def Fault.reason : Fault → String
  | .empty => "must not be empty"
  | .dash => "must not start with '-'"
  | .emptyComponent => "must not have empty path components"
  | .sequence => "contains a sequence git does not allow"
  | .character => "contains a character git does not allow"

def isForbidden (c : Char) : Bool :=
  isBlank c || isControl c || c ∈ ['~', '^', ':', '?', '*', '[', '\\']

def fault? (cs : List Char) : Option Fault :=
  if cs = [] then some .empty
  else if ['-'].isPrefixOf cs then some .dash
  else if ['/'].isPrefixOf cs ∨ ['/'].isSuffixOf cs ∨ occursIn ['/', '/'] cs then some .emptyComponent
  else if occursIn ['.', '.'] cs ∨ occursIn ['@', '\x7b'] cs ∨ ".lock".toList.isSuffixOf cs then
    some .sequence
  else if cs.any isForbidden then some .character
  else none

def validate (name : String) : Except Failure Unit :=
  match fault? name.toList with
  | some fault => .error (.branchInvalid name fault.reason)
  | none => .ok ()

def defaultLocation : String := "default"

/-- The branches that may hold a location of a package, in search order. -/
def candidates (package location : String) : List String :=
  if location = defaultLocation then ["main", package ++ "/main"]
  else ["location/" ++ location ++ "/main", package ++ "/location/" ++ location ++ "/main"]

end Depot.Branch
