import Depot.Text.Utf8

/-! Shell scripts: their words and their commands. -/

namespace Depot.Host

mutual

/-- A part of a word. Quoted parts are not split and stand for no pattern. -/
inductive Part where
  | text (cs : Octets) (isQuoted : Bool)
  | param (name : Octets) (use : Use) (isQuoted : Bool)
  | arithmetic (expr : List Part) (isQuoted : Bool)
  | output (script : Script) (isQuoted : Bool)
  /-- All arguments, each a word of its own: what stands between quotes is only this. -/
  | eachArg
  /-- An empty text between quotes. -/
  | quotes

inductive Use where
  | plain
  | length
  /-- Written in a way that means nothing. -/
  | malformed
  /-- A word takes the place of a value that is unset, or is unset or empty. -/
  | instead (orEmpty : Bool) (word : List Part)
  /-- The same, and the word becomes the value. -/
  | assign (orEmpty : Bool) (word : List Part)
  /-- A word takes the place of any other value. -/
  | unless (orEmpty : Bool) (word : List Part)
  /-- The shell ends for want of a value. -/
  | demand (orEmpty : Bool) (word : List Part)
  /-- A start, or an end, that matches a pattern is left out: the shortest or the longest. -/
  | trim (isEnd isLongest : Bool) (pattern : List Part)

inductive Target where
  | read (path : List Part)
  | write (mayReplace : Bool) (path : List Part)
  | append (path : List Part)
  | readWrite (path : List Part)
  /-- The same as another stream, or closed. -/
  | same (stream : List Part)
  /-- A text in the script, by its number. -/
  | document (number : Nat)

inductive Script where
  | nothing
  /-- Settings of variables, and words of a command, on a line. -/
  | simple (line : Nat) (settings words : List (List Part)) (redirects : List (Nat × Target))
  | sequence (first second : Script)
  | both (first second : Script)
  | either (first second : Script)
  | negate (script : Script)
  | pipe (stages : List Script)
  | background (script : Script)
  | choose (test yes : Script) (no : Option Script)
  /-- Repeats the body while the test succeeds, or until it does. -/
  | loop (isUntil : Bool) (test body : Script)
  | forEach (line : Nat) (name : Octets) (words : List (List Part)) (body : Script)
  /-- Runs the first script that has a pattern which the word matches. -/
  | select (line : Nat) (subject : List Part) (branches : List (List (List Part) × Script))
  | group (line : Nat) (body : Script) (redirects : List (Nat × Target))
  /-- Runs in a shell of its own. -/
  | apart (line : Nat) (body : Script) (redirects : List (Nat × Target))
  | define (name : Octets) (body : Script)

end

abbrev Word := List Part

abbrev Redirect := Nat × Target

abbrev Documents := List (Nat × Word)

def isNameStart (c : Char) : Bool := c.isAlpha || c = '_'

def isNameChar (c : Char) : Bool := c.isAlphanum || c = '_'

def isName (cs : Octets) : Bool := cs.head?.any isNameStart && cs.all isNameChar

def Word.text? (w : Word) : Option Octets :=
  (w.mapM fun (part : Part) => match part with
    | .text cs _ => some cs
    | .quotes => some []
    | _ => none).map List.flatten

def Word.plain? (w : Word) : Option Octets :=
  (w.mapM fun (part : Part) => match part with
    | .text cs false => some cs
    | _ => none).map List.flatten

def Word.setting? (w : Word) : Option (Octets × Word) :=
  match w with
  | .text cs false :: rest =>
    let name := cs.takeWhile isNameChar
    match cs.drop name.length with
    | '=' :: value =>
      if isName name then some (name, (if value = [] then [] else [.text value false]) ++ rest)
      else none
    | _ => none
  | _ => none

end Depot.Host
