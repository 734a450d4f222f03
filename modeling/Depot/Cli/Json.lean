import Depot.Text.Lines
import Depot.Text.Utf8

/-! JSON values and their text over several lines, with two blanks for each level. -/

namespace Depot.Cli

inductive Json where
  | null
  | text (s : String)
  | list (items : List Json)
  | record (fields : List (String × Json))

namespace Json

/-- A character in a quoted text. Only quotes, backslashes and control characters below a blank are
escaped. -/
def escaped (c : Char) : List Char :=
  if c = '"' then ['\\', '"']
  else if c = '\\' then ['\\', '\\']
  else if c = '\x08' then ['\\', 'b']
  else if c = '\x0c' then ['\\', 'f']
  else if c = '\n' then ['\\', 'n']
  else if c = '\r' then ['\\', 'r']
  else if c = '\t' then ['\\', 't']
  else if c.toNat < 0x20 then ['\\', 'u', '0', '0'] ++ Hex.encode [UInt8.ofNat c.toNat]
  else [c]

def quoted (s : String) : List Char := '"' :: s.toList.flatMap escaped ++ ['"']

def newLine (level : Nat) : List Char := '\n' :: List.replicate (2 * level) ' '

mutual

def print (level : Nat) : Json → List Char
  | null => "null".toList
  | text s => quoted s
  | list [] => "[]".toList
  | list items =>
    '[' :: newLine (level + 1) ++ joinWith (',' :: newLine (level + 1)) (printAll (level + 1) items) ++
      newLine level ++ [']']
  | record [] => ['\x7b', '\x7d']
  | record fields =>
    '\x7b' :: newLine (level + 1) ++
      joinWith (',' :: newLine (level + 1)) (printFields (level + 1) fields) ++ newLine level ++ ['\x7d']

def printAll (level : Nat) : List Json → List (List Char)
  | [] => []
  | item :: items => item.print level :: printAll level items

def printFields (level : Nat) : List (String × Json) → List (List Char)
  | [] => []
  | (name, value) :: fields =>
    (quoted name ++ [':', ' '] ++ value.print level) :: printFields level fields

end

def document (j : Json) : String := String.ofList (j.print 0 ++ ['\n'])

def ofOption (s? : Option String) : Json :=
  match s? with
  | some s => text s
  | none => null

end Json

end Depot.Cli
