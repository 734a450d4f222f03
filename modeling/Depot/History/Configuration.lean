import Depot.Text.Utf8

/-!
The configuration file of a repository: sections with names and values. Only what decides whether
the repository can be used is looked at.
-/

namespace Depot.Configuration

/-- A value under its full name, or a name alone. -/
structure Entry where
  name : Octets
  value : Option Octets
  deriving DecidableEq, Repr

def isNameChar (c : Char) : Bool := c.isAlphanum || c = '-'

/-- What the value read so far needs to know. -/
structure Value where
  text : Octets := []
  isQuoted : Bool := false
  isComment : Bool := false
  /-- The blanks seen since the last other character. -/
  blanks : Nat := 0

def Value.add (v : Value) (c : Char) : Value :=
  { v with text := v.text ++ List.replicate v.blanks ' ' ++ [c], blanks := 0 }

/-- Reads a value up to the end of its line, and gives the rest. -/
def value? (v : Value) : Octets → Option (Octets × Octets)
  | [] => if v.isQuoted then none else some (v.text, [])
  | '\n' :: rest => if v.isQuoted then none else some (v.text, rest)
  | c :: rest =>
    if v.isComment then value? v rest
    else if isGap c && !v.isQuoted then
      value? { v with blanks := if v.text = [] then 0 else v.blanks + 1 } rest
    else if !v.isQuoted && (c = ';' || c = '#') then value? { v with isComment := true } rest
    else if c = '\\' then
      match rest with
      | [] => some (v.text, [])
      | '\n' :: rest => value? v rest
      | 't' :: rest => value? (v.add '\t') rest
      | 'b' :: rest => value? (v.add '\x08') rest
      | 'n' :: rest => value? (v.add '\n') rest
      | '\\' :: rest => value? (v.add '\\') rest
      | '"' :: rest => value? (v.add '"') rest
      | _ => none
    else if c = '"' then value? { v with isQuoted := !v.isQuoted } rest
    else value? (v.add c) rest

/-- Reads the quoted second part of the head of a section, up to the bracket that ends it. -/
def subsection? (text : Octets) : Octets → Option (Octets × Octets)
  | '"' :: ']' :: rest => some (text, rest)
  | '\\' :: c :: rest => if c = '\n' then none else subsection? (text ++ [c]) rest
  | c :: rest => if c = '\n' ∨ c = '"' ∨ c = '\\' then none else subsection? (text ++ [c]) rest
  | [] => none

/-- Reads the head of a section after the bracket that begins it. -/
def section? (cs : Octets) : Option (Octets × Octets) :=
  let name := cs.takeWhile fun c => isNameChar c || c = '.'
  match cs.drop name.length with
  | ']' :: rest => some (name.map Char.toLower, rest)
  | c :: rest =>
    if isGap c ∧ c ≠ '\n' then
      match rest.dropWhile fun c => isGap c && c ≠ '\n' with
      | '"' :: rest =>
        (subsection? [] rest).map fun r => (name.map Char.toLower ++ '.' :: r.1, r.2)
      | _ => none
    else none
  | [] => none

/-- Reads entries; `section` is the name of the section they are in. -/
def entries? (sectionName : Octets) : Nat → Octets → Option (List Entry)
  | 0, _ => none
  | _, [] => some []
  | fuel + 1, c :: rest =>
    if isGap c then entries? sectionName fuel rest
    else if c = '#' ∨ c = ';' then entries? sectionName fuel (rest.dropWhile (· ≠ '\n'))
    else if c = '[' then do
      let (name, rest) ← section? rest
      entries? (name ++ ['.']) fuel rest
    else if !c.isAlpha then none
    else
      let name := c :: rest.takeWhile isNameChar
      let full := sectionName ++ name.map Char.toLower
      match ((c :: rest).drop name.length).dropWhile fun c => c = ' ' || c = '\t' with
      | [] => some [⟨full, none⟩]
      | '\n' :: rest => (entries? sectionName fuel rest).map (⟨full, none⟩ :: ·)
      | '=' :: rest => do
        let (value, rest) ← value? {} rest
        return ⟨full, some value⟩ :: (← entries? sectionName fuel rest)
      | _ => none

/-- Line ends of two characters count as one. -/
def joinLineEnds : Octets → Octets
  | [] => []
  | '\x0d' :: '\n' :: rest => '\n' :: joinLineEnds rest
  | c :: rest => c :: joinLineEnds rest

/-- The entries of a file, without a byte order mark; nothing if some line is none. -/
def parse? (bs : Bytes) : Option (List Entry) :=
  let cs := joinLineEnds (Octets.ofBytes (if [0xEF, 0xBB, 0xBF].isPrefixOf bs then bs.drop 3 else bs))
  entries? [] (cs.length + 1) cs

/-- A whole number with a unit. -/
def number? (text : Octets) : Option Nat :=
  let digits := (dropGap text).takeWhile Char.isDigit
  let scale? := match (dropGap text).drop digits.length with
    | [] => some 1
    | [c] => if c.toLower = 'k' then some 1024 else if c.toLower = 'm' then some (1024 * 1024)
      else if c.toLower = 'g' then some (1024 * 1024 * 1024) else none
    | _ => none
  if digits = [] then none
  else scale?.map fun scale => digits.foldl (fun n c => n * 10 + (c.toNat - 48)) 0 * scale

def flag? : Option Octets → Option Bool
  | none => some true
  | some text =>
    let word := String.ofList (text.map Char.toLower)
    if word ∈ ["true", "yes", "on"] then some true
    else if word ∈ ["", "false", "no", "off"] then some false
    else (number? text).map (· ≠ 0)

def last? (name : String) (es : List Entry) : Option Entry :=
  es.reverse.find? fun e => e.name = octets name

def extensionsStart : Octets := octets "extensions."

/-- Extensions that a repository of any version may have. -/
def anyVersion : List Octets := ["noop", "preciousobjects", "partialclone", "worktreeconfig"].map octets

/-- Extensions that only a repository of the newer version may have. -/
def newVersion : List Octets := ["noop-v1", "objectformat"].map octets

def defaults : Bytes :=
  Utf8.ofString "[core]\n\trepositoryformatversion = 0\n\tfilemode = true\n\tbare = true\n"

/-- What a repository asks for can be given: it is of a known version, and so are its extensions. -/
def isSupported (es : List Entry) : Bool :=
  let version? := last? "core.repositoryformatversion" es
  let isSane := (es.filter fun e => e.name = octets "core.bare").all fun e => (flag? e.value).isSome
  let extensions := (es.filter fun e => extensionsStart.isPrefixOf e.name).map fun e =>
    e.name.drop extensionsStart.length
  isSane && match version? with
    | none => true
    | some e => match e.value.bind number? with
      | some 0 => !extensions.any newVersion.contains
      | some 1 => extensions.all fun e => anyVersion.contains e || newVersion.contains e
      | _ => false

/-- All that a new configuration file says is said last. -/
def hasDefaults (es : List Entry) : Bool :=
  [("core.repositoryformatversion", "0"), ("core.filemode", "true"), ("core.bare", "true")].all
    fun setting => (last? setting.1 es).bind (·.value) = some (octets setting.2)

/-- The contents of a configuration file after the repository has been made again. -/
def renewed (bs : Bytes) : Bytes :=
  if (parse? bs).any hasDefaults then bs else bs ++ 0x0A :: defaults

/-- The contents of a configuration file with which the repository can be used. -/
def isUsable (bs : Bytes) : Bool := (parse? bs).any isSupported

end Depot.Configuration
