import Depot.Text.Utf8

/-!
Writing text in TOML. The plainest of the four ways that needs no escapes is taken, basic text before
literal text and one line before several; if there is none, basic text with escapes.
-/

namespace Depot.Toml

def longestRun (c : Char) (run : Nat) : List Char → Nat
  | [] => run
  | d :: cs => if d = c then longestRun c (run + 1) cs else max run (longestRun c 0 cs)

/-- Control characters that only an escape can write; a line feed and a tab are none. -/
def needsEscape (c : Char) : Bool :=
  c ≠ '\t' && c ≠ '\n' && (c.toNat < 0x20 || c.toNat = 0x7F)

/-- A character by its number, in four uppercase digits. -/
def numbered (c : Char) : List Char :=
  '\\' :: 'u' :: [4096, 256, 16, 1].map fun unit => (Hex.digit (c.toNat / unit % 16)).toUpper

def escapedChar (isLong : Bool) (c : Char) : List Char :=
  if c = '\x08' then ['\\', 'b']
  else if c = '\t' then ['\\', 't']
  else if c = '\n' then if isLong then ['\n'] else ['\\', 'n']
  else if c = '\x0c' then ['\\', 'f']
  else if c = '\r' then ['\\', 'r']
  else if c = '\\' then ['\\', '\\']
  else if needsEscape c then numbered c
  else [c]

/-- Basic text between its quotes, after `run` quotes. Over lines, two quotes in a row need no
escape. -/
def escapedText (isLong : Bool) : Nat → List Char → List Char
  | _, [] => []
  | run, c :: cs =>
    if c = '"' then
      if isLong ∧ run < 2 then '"' :: escapedText isLong (run + 1) cs
      else '\\' :: '"' :: escapedText isLong 0 cs
    else escapedChar isLong c ++ escapedText isLong 0 cs

theorem escapedText_nil (isLong : Bool) (run : Nat) : escapedText isLong run [] = [] := by
  rw [escapedText]

inductive Style where
  | basic | literal | longBasic | longLiteral
  deriving DecidableEq, Repr

def styleOf (cs : List Char) : Style :=
  let codes := cs.any needsEscape
  let backslash := decide ('\\' ∈ cs)
  let newline := decide ('\n' ∈ cs)
  let double := longestRun '"' 0 cs
  let single := longestRun '\'' 0 cs
  if !codes && !backslash && double = 0 && !newline then .basic
  else if !codes && single = 0 && !newline then .literal
  else if !codes && !backslash && double ≤ 2 then .longBasic
  else if !codes && single ≤ 2 then .longLiteral
  else if newline then .longBasic
  else .basic

/-- Text over lines starts on a line of its own. -/
def opening (cs : List Char) : List Char := if '\n' ∈ cs then ['\n'] else []

def written (style : Style) (cs : List Char) : List Char :=
  match style with
  | .basic => ['"'] ++ escapedText false 0 cs ++ ['"']
  | .literal => ['\''] ++ cs ++ ['\'']
  | .longBasic => ['"', '"', '"'] ++ opening cs ++ escapedText true 0 cs ++ ['"', '"', '"']
  | .longLiteral => ['\'', '\'', '\''] ++ opening cs ++ cs ++ ['\'', '\'', '\'']

def quoted (cs : List Char) : List Char := written (styleOf cs) cs

end Depot.Toml
