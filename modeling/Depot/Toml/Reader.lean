import Depot.Toml.Number

/-! Reading TOML documents. -/

namespace Depot.Toml

def isBareKey (c : Char) : Bool := c.isAlphanum || c = '-' || c = '_'

def keyPart? : List Char → Option (Key × List Char)
  | '"' :: rest => basicText .none rest
  | '\'' :: rest => literalText rest
  | cs =>
    let (name, rest) := cs.span isBareKey
    if name = [] then none else some (name, rest)

/-- The most containers that may be open at once, and the most parts of a key. -/
def depthLimit : Nat := 79

/-- The parts of a dotted key, at most `parts` of them, with the blanks around them. -/
def keyParts? : Nat → List Char → Option (List Key × List Char)
  | 0, _ => none
  | parts + 1, cs => do
    let (name, rest) ← keyPart? (skipSpace cs)
    match skipSpace rest with
    | '.' :: rest =>
      let (names, rest) ← keyParts? parts rest
      return (name :: names, rest)
    | rest => return ([name], rest)

/-- A dotted key: the parts before the last, the last part, and the rest. -/
def key? (cs : List Char) : Option (List Key × Key × List Char) := do
  let (names, rest) ← keyParts? depthLimit cs
  let last ← names.getLast?
  return (names.dropLast, last, rest)

/-- The items of an array after its opening bracket, each read by `value`; no more than `fuel`. -/
def items? (value : List Char → Option (Value × List Char)) :
    Nat → List Char → Option (List Value × List Char)
  | 0, _ => none
  | fuel + 1, cs => do
    match ← skipLines? false cs with
    | ']' :: rest => return ([], rest)
    | cs =>
      let (v, rest) ← value cs
      match ← skipLines? false rest with
      | ']' :: rest => return ([v], rest)
      | ',' :: rest =>
        let (vs, rest) ← items? value fuel rest
        return (v :: vs, rest)
      | _ => none

/-- The pairs of an inline table after its opening brace, added to `es`; no more than `fuel`. -/
def pairs? (value : List Char → Option (Value × List Char)) :
    Nat → Entries → List Char → Option (Entries × List Char)
  | 0, _, _ => none
  | fuel + 1, es, cs => do
    let (path, key, rest) ← key? cs
    let rest ← char? '=' rest
    let (v, rest) ← value (skipSpace rest)
    let es ← es.addValue path key v .inline
    match skipSpace rest with
    | '\x7d' :: rest => return (es, rest)
    | ',' :: rest => pairs? value fuel es rest
    | _ => none

/-- A value in which at most `depth` containers are open at once. -/
def value? : Nat → List Char → Option (Value × List Char)
  | depth, '"' :: rest => let _ := depth; (text ('"' :: rest)).map fun (t, rest) => (.string t, rest)
  | depth, '\'' :: rest => let _ := depth; (text ('\'' :: rest)).map fun (t, rest) => (.string t, rest)
  | depth + 1, '[' :: rest =>
    (items? (value? depth) (rest.length + 1) rest).map fun (vs, rest) => (.array vs, rest)
  | depth + 1, '\x7b' :: rest =>
    match skipSpace rest with
    | '\x7d' :: rest => some (.table .inline [], rest)
    | rest =>
      (pairs? (value? depth) (rest.length + 1) [] rest).map fun (es, rest) =>
        (.table .inline es, rest)
  | _, 't' :: 'r' :: 'u' :: 'e' :: rest => some (.boolean true, rest)
  | _, 'f' :: 'a' :: 'l' :: 's' :: 'e' :: rest => some (.boolean false, rest)
  | _, cs => number? cs

/-- A table that is being filled, and whether it is an element of an array. -/
structure Document where
  entries : Entries := []
  /-- The path of the last header. -/
  header : List Key := []

namespace Document

/-- Adds a value under a dotted key to the table of the last header. -/
def addValue (doc : Document) (path : List Key) (key : Key) (v : Value) : Option Document :=
  (doc.entries.descend false (fun form sub => sub.addValue path key v form) doc.header .defined).map
    fun es => { doc with entries := es }

/-- The rest of a header: its key, closing brackets and the end of the line. -/
def header? (brackets : List Char) (cs : List Char) : Option (List Key × Key × List Char) := do
  let (path, key, rest) ← key? cs
  if brackets.isPrefixOf rest then
    let rest ← endOfLine? (rest.drop brackets.length)
    return (path, key, rest)
  else none

/-- Reads one line that is neither blank nor a comment alone; a value may take more lines. -/
def statement? (doc : Document) : List Char → Option (Document × List Char)
  | '[' :: '[' :: cs => do
    let (path, key, rest) ← header? [']', ']'] cs
    return (⟨← doc.entries.startElement path key, path ++ [key]⟩, rest)
  | '[' :: cs => do
    let (path, key, rest) ← header? [']'] cs
    return (⟨← doc.entries.startTable path key, path ++ [key]⟩, rest)
  | cs => do
    let (path, key, rest) ← key? cs
    let rest ← char? '=' rest
    let (v, rest) ← value? depthLimit (skipSpace rest)
    let rest ← endOfLine? rest
    return (← doc.addValue path key v, rest)

/-- Reads statements to the end of the text, no more than `fuel`. -/
def statements? : Nat → Document → List Char → Option Document
  | 0, _, _ => none
  | fuel + 1, doc, cs => do
    match ← skipLines? false cs with
    | [] => return doc
    | cs =>
      let (doc, rest) ← doc.statement? cs
      statements? fuel doc rest

/-- Reads a document; a byte order mark in front of it means nothing. -/
def parse? (cs : List Char) : Option Entries :=
  let cs := match cs with
    | '\uFEFF' :: cs => cs
    | cs => cs
  (statements? (cs.length + 1) {} cs).map (·.entries)

end Document

end Depot.Toml
