import Depot.Text.Utf8

/-!
Patterns of names. A pattern is a list of items; in a pattern of paths only some of them match a
slash.
-/

namespace Depot

/-- What a bracket of a pattern lists. -/
structure Bracket where
  isNegated : Bool
  /-- The ranges of characters, ends included. -/
  ranges : List (Char × Char)
  deriving DecidableEq, Repr

def Bracket.has (b : Bracket) (c : Char) : Bool :=
  (b.ranges.any fun r => r.1 ≤ c && c ≤ r.2) != b.isNegated

inductive GlobItem where
  | char (c : Char)
  /-- One character. -/
  | one
  | bracket (b : Bracket)
  /-- Any number of characters. -/
  | many
  /-- Any number of characters, among them slashes. -/
  | anything
  /-- Any number of directories, each with the slash after it. -/
  | directories
  deriving DecidableEq, Repr

abbrev Glob := List GlobItem

namespace Glob

/-- Some end of the text, or all of it, has the property. -/
def someEnd (p : Octets → Bool) : Octets → Bool
  | [] => p []
  | c :: cs => p (c :: cs) || someEnd p cs

/-- Some end of the text has the property, and what comes before it has no slash if there must be
none. -/
def afterRun (isPath : Bool) (p : Octets → Bool) : Octets → Bool
  | [] => p []
  | c :: cs => p (c :: cs) || (!(isPath && c = '/') && afterRun isPath p cs)

/-- Some end of the text that stands right after a slash, or all of it, has the property. -/
def afterDirectories (p : Octets → Bool) (cs : Octets) : Bool :=
  p cs || someEnd (fun
    | '/' :: rest => p rest
    | _ => false) cs

/-- The text matches the pattern; `isPath` keeps slashes apart from other characters. -/
def doesMatch (isPath : Bool) : Glob → Octets → Bool
  | [], cs => cs.isEmpty
  | .char x :: g, cs => match cs with
    | [] => false
    | c :: cs => c = x && doesMatch isPath g cs
  | .one :: g, cs => match cs with
    | [] => false
    | c :: cs => !(isPath && c = '/') && doesMatch isPath g cs
  | .bracket b :: g, cs => match cs with
    | [] => false
    | c :: cs => b.has c && !(isPath && c = '/') && doesMatch isPath g cs
  | .many :: g, cs => afterRun isPath (doesMatch isPath g) cs
  | .anything :: g, cs => someEnd (doesMatch isPath g) cs
  | .directories :: g, cs => afterDirectories (doesMatch isPath g) cs

/-- The characters of a class by its name. -/
def classRanges? (name : Octets) : Option (List (Char × Char)) :=
  match String.ofList name with
  | "alnum" => some [('0', '9'), ('A', 'Z'), ('a', 'z')]
  | "alpha" => some [('A', 'Z'), ('a', 'z')]
  | "blank" => some [(' ', ' '), ('\t', '\t')]
  | "cntrl" => some [('\x00', '\x1f'), ('\x7f', '\x7f')]
  | "digit" => some [('0', '9')]
  | "graph" => some [('!', '~')]
  | "lower" => some [('a', 'z')]
  | "print" => some [(' ', '~')]
  | "punct" => some [('!', '/'), (':', '@'), ('[', '\x60'), ('\x7b', '~')]
  | "space" => some [('\t', '\x0d'), (' ', ' ')]
  | "upper" => some [('A', 'Z')]
  | "xdigit" => some [('0', '9'), ('A', 'F'), ('a', 'f')]
  | _ => none

end Glob

end Depot
