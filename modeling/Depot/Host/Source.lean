import Depot.Host.Syntax
import Depot.Pairs

/-! The text of a script while it is read, and its smallest pieces. -/

namespace Depot.Host

inductive Token where
  | done
  | newline
  | op (text : String)
  | redirect (stream : Nat) (text : String)
  | word (w : Word) (isQuoted : Bool)
  | keyword (text : String)

def Token.shown : Token → String
  | .done => "end of file"
  | .newline => "newline"
  | .op text | .keyword text => "\"" ++ text ++ "\""
  | .redirect .. => "redirection"
  | .word .. => "word"

def Token.isOp (text : String) : Token → Bool
  | .op t => t = text
  | _ => false

def Token.isKeyword (text : String) : Token → Bool
  | .keyword t => t = text
  | _ => false

def keywords : List String :=
  ["!", "case", "do", "done", "elif", "else", "esac", "fi", "for", "if", "in", "then", "until",
    "while", "\x7b", "\x7d"]

def Token.endsList : Token → Bool
  | .done => true
  | .op text => text ∈ [")", ";;"]
  | .keyword text =>
    text ∈ ["do", "done", "elif", "else", "esac", "fi", "then", "\x7d"]
  | _ => false

/-- A text in the script that has been announced. -/
structure Awaited where
  number : Nat
  delimiter : Octets
  hasTabs : Bool
  isPlain : Bool

/-- Text that stands for the name of a command, at the beginning of what is left of a script. -/
structure Substitute where
  name : Octets
  /-- How much of the script comes after it. -/
  after : Nat
  /-- The word after it may stand for another text, too. -/
  goesOn : Bool

structure Source where
  rest : Octets
  line : Nat := 1
  awaited : List Awaited := []
  documents : Documents := []
  /-- The number that the next text in the script gets. -/
  next : Nat := 0
  /-- A token that was read and given back. -/
  pushed : Option Token := none
  /-- The token read last. -/
  last : Token := .done
  /-- Other texts for words that begin commands. -/
  aliases : List (Octets × Octets) := []
  /-- The texts that have been put for words, the last first. -/
  substitutes : List Substitute := []

/-- Why a text is no script, and the line where that shows. -/
structure SyntaxFault where
  line : Nat
  text : String

abbrev Reading := StateT Source (Except SyntaxFault)

namespace Reading

def fail {α : Type} (text : String) : Reading α := fun s => .error ⟨s.line, text⟩

/-- Drops the ends of lines that a backslash joins to the next. -/
def joined : Nat → Octets → Nat × Octets
  | line, '\\' :: '\n' :: rest => joined (line + 1) rest
  | line, rest => (line, rest)

def peek : Reading (Option Char) := fun s =>
  let (line, rest) := joined s.line s.rest
  .ok (rest.head?, { s with line := line, rest := rest })

def skip : Reading Unit := fun s =>
  .ok ((), { s with
    rest := s.rest.tail
    line := if s.rest.head? = some '\n' then s.line + 1 else s.line })

def take : Reading (Option Char) := do
  let c ← peek
  skip
  return c

/-- Takes the next character as it stands. -/
def takeRaw : Reading (Option Char) := fun s =>
  .ok (s.rest.head?, { s with
    rest := s.rest.tail
    line := if s.rest.head? = some '\n' then s.line + 1 else s.line })

def skipIf (c : Char) : Reading Bool := do
  if (← peek) = some c then
    skip
    return true
  else return false

/-- The next characters that have a property, lines joined. -/
def run (p : Char → Bool) : Nat → Reading Octets
  | 0 => return []
  | fuel + 1 => do
    match ← peek with
    | some c =>
      if p c then
        skip
        return c :: (← run p fuel)
      else return []
    | none => return []

/-- The text up to a character, which is passed over; nothing if it is missing. -/
def upTo (c : Char) : Reading (Option Octets) := fun s =>
  let text := s.rest.takeWhile (· ≠ c)
  .ok (if text.length = s.rest.length then none else some text,
    { s with rest := s.rest.drop (text.length + 1), line := s.line + text.count '\n' })

def fuel : Reading Nat := fun s => .ok (s.rest.length + 1, s)

/-- Complains about the last token, and says which one should have come. -/
def unexpected {α : Type} (expected : Option Token) : Reading α := fun s =>
  (fail ("Syntax error: " ++ s.last.shown ++ " unexpected" ++ match expected with
    | some t => " (expecting " ++ t.shown ++ ")"
    | none => "")) s

/-- The texts that are still being read. A name means itself in the text that stands for it. -/
def openSubstitutes (s : Source) : List Substitute :=
  s.substitutes.filter fun sub => s.rest.length ≥ sub.after

def substitute? (t : Token) (s : Source) : Option (Octets × Octets) :=
  match t with
  | .word w false => do
    let name ← Word.plain? w
    if (openSubstitutes s).any fun sub => sub.name = name then none
    else
      let text ← assoc? name s.aliases
      return (name, text)
  | _ => none

/-- The end of a text that lets the next word stand for another was passed over, beginning at a
length. -/
def hasPassedSubstitute (before : Nat) (s : Source) : Bool :=
  s.substitutes.any fun sub => sub.goesOn && before > sub.after && s.rest.length ≤ sub.after

def putSubstitute (name text : Octets) (s : Source) : Source :=
  let goesOn : Bool := match text.getLast? with
    | some c => c = ' ' || c = '\t'
    | none => false
  { s with
    rest := text ++ s.rest
    substitutes := ⟨name, s.rest.length, goesOn⟩ :: openSubstitutes s }

def giveBack : Reading Unit := modify fun s => { s with pushed := some s.last }

/-- The text of an awaited document: the lines before its delimiter, and the rest after it. A line
that is joined to the one before is no delimiter. -/
def documentText (a : Awaited) : Bool → List Octets → Octets × List Octets
  | _, [] => ([], [])
  | isJoined, line :: rest =>
    let line := if a.hasTabs then line.dropWhile (· = '\t') else line
    if line = a.delimiter ∧ !isJoined then ([], rest)
    else
      let slashes := line.reverse.takeWhile (· = '\\')
      let (text, after) := documentText a (!a.isPlain && slashes.length % 2 = 1) rest
      (line ++ (if rest = [] then [] else ['\n']) ++ text, after)

end Reading

def isMeta (c : Char) : Bool := c ∈ [' ', '\t', '\n', ';', '&', '|', '<', '>', '(', ')']

def isSpecialParam (c : Char) : Bool := c.isDigit || c ∈ ['?', '$', '!', '-', '*', '@', '#']

/-- What stands between backquotes, as a script, and the rest after it. -/
def backquoted (isQuoted : Bool) : Octets → Option (Octets × Octets)
  | [] => none
  | '\x60' :: rest => some ([], rest)
  | '\\' :: '\n' :: rest => backquoted isQuoted rest
  | '\\' :: c :: rest =>
    let isEscape := c = '\\' || c = '\x60' || c = '$' || (isQuoted && c = '"')
    (backquoted isQuoted rest).map fun r => ((if isEscape then [c] else ['\\', c]) ++ r.1, r.2)
  | c :: rest => (backquoted isQuoted rest).map fun r => (c :: r.1, r.2)

end Depot.Host
