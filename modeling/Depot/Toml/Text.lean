import Depot.Text.Utf8

/-! The four ways to write text in TOML, comments and blanks, as they are read. -/

namespace Depot.Toml

def isSpace (c : Char) : Bool := c = ' ' || c = '\t'

/-- What may stand in a comment or in literal text: a tab or any character but control characters. -/
def isPrintable (c : Char) : Bool := c = '\t' || (0x20 ≤ c.toNat && c.toNat ≠ 0x7F)

def skipSpace (cs : List Char) : List Char := cs.dropWhile isSpace

def newline? : List Char → Option (List Char)
  | '\n' :: rest => some rest
  | '\r' :: '\n' :: rest => some rest
  | _ => none

/-- The rest of a line that has nothing more than a comment. -/
def endOfLine? (cs : List Char) : Option (List Char) :=
  let rest := match skipSpace cs with
    | '#' :: comment => comment.dropWhile isPrintable
    | rest => rest
  if rest = [] then some [] else newline? rest

/-- Skips blanks, line ends and comments; `inComment` holds inside a comment. -/
def skipLines? (inComment : Bool) : List Char → Option (List Char)
  | [] => some []
  | '\n' :: rest => skipLines? false rest
  | '\r' :: '\n' :: rest => skipLines? false rest
  | c :: rest =>
    if inComment then if isPrintable c then skipLines? true rest else none
    else if c = '#' then skipLines? true rest
    else if isSpace c then skipLines? false rest
    else some (c :: rest)

/-- Where a reader of basic text stands. -/
inductive Escape where
  | none
  /-- After a line that ends with a backslash: blanks and line ends are left out. -/
  | skipping
  | backslash
  /-- After a backslash and blanks, which a line end must follow. -/
  | gap
  /-- In a character number that lacks `missing + 1` digits. -/
  | number (missing value : Nat)
  deriving DecidableEq

def charOf? (n : Nat) : Option Char :=
  if h : n.isValidChar then some (Char.ofNatAux n h) else none

def escaped? : Char → Option Char
  | 'b' => some '\x08'
  | 't' => some '\t'
  | 'n' => some '\n'
  | 'f' => some '\x0c'
  | 'r' => some '\r'
  | '"' => some '"'
  | '\\' => some '\\'
  | _ => none

/-- The outcome of reading: the text and what follows its end. -/
abbrev Read := Option (List Char × List Char)

def consRead (c : Char) (r : Read) : Read := r.map fun (text, rest) => (c :: text, rest)

/-- Up to two quotes that belong to the text, when a run of three or more ends it. -/
def closing? (quote : Char) : List Char → Read
  | a :: b :: c :: d :: e :: rest =>
    if a = quote ∧ b = quote ∧ c = quote then
      if d = quote then if e = quote then some ([quote, quote], rest) else some ([quote], e :: rest)
      else some ([], d :: e :: rest)
    else none
  | [a, b, c, d] =>
    if a = quote ∧ b = quote ∧ c = quote then
      if d = quote then some ([quote], []) else some ([], [d])
    else none
  | [a, b, c] => if a = quote ∧ b = quote ∧ c = quote then some ([], []) else none
  | _ => none

/-- The first two of five quotes belong to the text. -/
theorem closing?_five (quote : Char) (rest : List Char) :
    closing? quote (quote :: quote :: quote :: quote :: quote :: rest) =
      some ([quote, quote], rest) := by
  simp [closing?]

def digitRead (missing value : Nat) (c : Char) (more : Escape → Read) : Read :=
  match Hex.value? c with
  | none => none
  | some d =>
    match missing with
    | n + 1 => more (.number n (value * 16 + d))
    | 0 =>
      match charOf? (value * 16 + d) with
      | none => none
      | some c => consRead c (more .none)

/-- Basic text on one line, up to its closing quote. -/
def basicText : Escape → List Char → Read
  | _, [] => none
  | .none, c :: rest =>
    if c = '"' then some ([], rest)
    else if c = '\\' then basicText .backslash rest
    else if isPrintable c then consRead c (basicText .none rest)
    else none
  | .backslash, c :: rest =>
    if c = 'u' then basicText (.number 3 0) rest
    else if c = 'U' then basicText (.number 7 0) rest
    else match escaped? c with
      | none => none
      | some e => consRead e (basicText .none rest)
  | .number missing value, c :: rest =>
    digitRead missing value c fun state => basicText state rest
  | .skipping, _ :: _ => none
  | .gap, _ :: _ => none

def longText : Escape → List Char → Read
  | _, [] => none
  | .backslash, '\n' :: rest => longText .skipping rest
  | .backslash, '\r' :: '\n' :: rest => longText .skipping rest
  | .backslash, c :: rest =>
    if c = 'u' then longText (.number 3 0) rest
    else if c = 'U' then longText (.number 7 0) rest
    else if isSpace c then longText .gap rest
    else match escaped? c with
      | none => none
      | some e => consRead e (longText .none rest)
  | .gap, '\n' :: rest => longText .skipping rest
  | .gap, '\r' :: '\n' :: rest => longText .skipping rest
  | .gap, c :: rest => if isSpace c then longText .gap rest else none
  | .number missing value, c :: rest =>
    digitRead missing value c fun state => longText state rest
  | .skipping, '\n' :: rest => longText .skipping rest
  | .skipping, '\r' :: '\n' :: rest => longText .skipping rest
  | .none, '\r' :: '\n' :: rest => consRead '\n' (longText .none rest)
  | state, c :: rest =>
    if state = .skipping ∧ isSpace c then longText .skipping rest
    else if c = '\n' then consRead '\n' (longText .none rest)
    else if c = '\\' then longText .backslash rest
    else if c = '"' then
      match closing? '"' (c :: rest) with
      | some r => some r
      | none => consRead c (longText .none rest)
    else if isPrintable c then consRead c (longText .none rest)
    else none

/-- A character outside an escape, but for a carriage return. -/
theorem longText_cons {c : Char} (h : c ≠ '\r') (rest : List Char) :
    longText .none (c :: rest) =
      if c = '\n' then consRead '\n' (longText .none rest)
      else if c = '\\' then longText .backslash rest
      else if c = '"' then (closing? '"' (c :: rest)).or (consRead c (longText .none rest))
      else if isPrintable c then consRead c (longText .none rest)
      else none := by
  rw [longText]
  · rw [if_neg (by simp)]
    cases closing? '"' (c :: rest) <;> rfl
  all_goals simp [h]

def literalText : List Char → Read
  | [] => none
  | c :: rest =>
    if c = '\'' then some ([], rest)
    else if isPrintable c then consRead c (literalText rest)
    else none

def longLiteral : List Char → Read
  | [] => none
  | '\r' :: '\n' :: rest => consRead '\n' (longLiteral rest)
  | c :: rest =>
    if c = '\'' then
      match closing? '\'' (c :: rest) with
      | some r => some r
      | none => consRead c (longLiteral rest)
    else if c = '\n' ∨ isPrintable c then consRead c (longLiteral rest)
    else none

/-- Leaves out a line end right after opening quotes. -/
def afterOpening (cs : List Char) : List Char := (newline? cs).getD cs

def text : List Char → Read
  | '"' :: '"' :: '"' :: rest => longText .none (afterOpening rest)
  | '"' :: rest => basicText .none rest
  | '\'' :: '\'' :: '\'' :: rest => longLiteral (afterOpening rest)
  | '\'' :: rest => literalText rest
  | _ => none

/-- A second character that is no quote is the first of the text. -/
theorem text_of_second {b : Char} (h : b ≠ '"') (rest : List Char) :
    text ('"' :: b :: rest) = basicText .none (b :: rest) := by
  rw [text]
  simp [h]

end Depot.Toml
