import Depot.Host.Regex
import Depot.Host.Tool

/-! The scripts of `sed`: commands, the lines that they are for, and how they are written. -/

namespace Depot.Host.Tool.Edit

/-- An expression and how it is written; nothing stands for the one used last. -/
abbrev Pattern := Option (Regex × Regex.Style)

inductive Address where
  | line (n : Nat)
  | last
  | found (p : Pattern)
  /-- Lines at a distance from each other, from the first on. -/
  | every (first step : Nat)

inductive RangeEnd where
  | address (a : Address)
  | after (n : Nat)
  | multiple (n : Nat)

structure Lines where
  first : Option Address := none
  finish : Option RangeEnd := none
  isNegated : Bool := false

inductive Piece where
  | text (cs : Octets)
  | group (number : Nat)
  /-- What becomes of letters from here on: `U`, `L`, the next one only `u`, `l`; or nothing `E`. -/
  | letters (mode : Char)

structure Replacement where
  pattern : Pattern
  pieces : List Piece
  /-- The first match that is replaced. -/
  number : Nat := 1
  isGlobal : Bool := false
  isPrinted : Bool := false
  file : Option Octets := none

inductive Action where
  /-- Begins a block, up to the command of a number. -/
  | block (finish : Nat)
  | blockEnd
  | label
  /-- Goes on at the command of a number, or at the end. -/
  | jump (target : Option Nat)
  | jumpIf (hasReplaced : Bool) (target : Option Nat)
  | append (text : Octets)
  | insert (text : Octets)
  | change (text : Octets)
  | replace (r : Replacement)
  | map (pairs : List (Char × Char))
  | readFile (name : Octets)
  | readLine (name : Octets)
  | writeFile (name : Octets)
  | writeFirst (name : Octets)
  | quit (isPrinted : Bool) (status : Nat)
  | show (width : Option Nat)
  /-- A command that is only a letter. -/
  | plain (letter : Char)

structure Command where
  lines : Lines
  action : Action

/-! Reading scripts -/

/-- What is left of a script, and how much has been read. -/
structure Rest where
  chars : Octets
  place : Nat := 0

abbrev Parse := StateT Rest (Except (Nat × Octets))

def bad {α : Type} (text : String) : Parse α := do throw ((← get).place, octets text)

def next : Parse (Option Char) := do
  let s ← get
  match s.chars with
  | [] => return none
  | c :: cs =>
    set ({ chars := cs, place := s.place + 1 } : Rest)
    return some c

def giveBack : Option Char → Parse Unit
  | none => return ()
  | some c => modify fun s => { chars := c :: s.chars, place := s.place - 1 }

def isBlank (c : Char) : Bool := c = ' ' || c = '\t'

def takeWhile (p : Char → Bool) : Parse Octets := do
  let cs := (← get).chars.takeWhile p
  modify fun s => { chars := s.chars.drop cs.length, place := s.place + cs.length }
  return cs

def nextSolid : Parse (Option Char) := do
  let _ ← takeWhile isBlank
  next

def number : Parse Nat := do return naturalOf (← takeWhile Char.isDigit)

def ending : Parse Unit := do
  match ← nextSolid with
  | none | some '\n' | some ';' => return ()
  | some '\x7d' => giveBack (some '\x7d')
  | some '#' => giveBack (some '#')
  | some _ => bad "extra characters after command"

/-- The rest of a bracket in an expression, with what closes it; nothing if that is missing. A mark may
stand in it, with or without a backslash. -/
def bracketRest (mark : Char) : Nat → Bool → Parse (Option Octets)
  | 0, _ => return none
  | fuel + 1, isFirst => do
    let more (cs : Octets) : Parse (Option Octets) := do
      return (← bracketRest mark fuel false).map (cs ++ ·)
    match ← next with
    | none => return none
    | some '\n' =>
      giveBack (some '\n')
      return none
    | some ']' => if isFirst then more [']'] else return some [']']
    | some '\\' =>
      match ← next with
      | none => return none
      | some d => more (if d = mark then [d] else if d = 'n' then ['\n'] else ['\\', d])
    | some '[' =>
      match (← get).chars with
      | kind :: rest =>
        if kind ∈ [':', '.', '='] then
          let name := rest.takeWhile (· ≠ kind)
          modify fun s => { chars := rest.drop (name.length + 2), place := s.place + name.length + 3 }
          more ('[' :: kind :: name ++ [kind, ']'])
        else more ['[']
      | [] => more ['[']
    | some c => more [c]

/-- The text up to a mark, which is passed over; nothing if it is missing. -/
def upTo (mark : Char) (isPattern : Bool) : Nat → Parse (Option Octets)
  | 0 => return none
  | fuel + 1 => do
    match ← next with
    | none => return none
    | some c =>
      if c = mark then return some []
      else if c = '\\' then
        match ← next with
        | none => return none
        | some d =>
          let rest ← upTo mark isPattern fuel
          return rest.map fun rest =>
            if d = mark then d :: rest
            else if d = 'n' ∧ isPattern then '\n' :: rest
            else '\\' :: d :: rest
      else if c = '\n' ∧ isPattern then
        giveBack (some c)
        return none
      else if c = '[' ∧ isPattern then
        let start := match (← get).chars with
          | '^' :: _ => ['^']
          | _ => []
        modify fun s => { chars := s.chars.drop start.length, place := s.place + start.length }
        match ← bracketRest mark fuel true with
        | none => return none
        | some inner => return (← upTo mark isPattern fuel).map fun rest => '[' :: start ++ inner ++ rest
      else return (← upTo mark isPattern fuel).map (c :: ·)

def escapeOf? : Char → Option Char
  | 'a' => some '\x07'
  | 'f' => some '\x0c'
  | 'r' => some '\x0d'
  | 't' => some '\t'
  | 'v' => some '\x0b'
  | _ => none

/-- The character that an escape by number stands for, or one of a control key, and the text after it. -/
def numberEscape? : Octets → Option (Char × Octets)
  | 'x' :: cs => numbered 16 2 cs
  | 'o' :: cs => numbered 8 3 cs
  | 'd' :: cs => numbered 10 3 cs
  | 'c' :: c :: cs => some (Char.ofNat ((c.toUpper.toNat).xor 64), cs)
  | _ => none
where
  numbered (base most : Nat) (cs : Octets) : Option (Char × Octets) :=
    let ds := (cs.take most).takeWhile fun c => (digitValue? base c).isSome
    if ds = [] then none else some (Char.ofNat (valueOf base ds % 256), cs.drop ds.length)

def patternOf (isExtended foldsCase : Bool) (cs : Octets) : Parse Pattern := do
  if cs = [] then return none
  let style : Regex.Style := { isExtended := isExtended, foldsCase := foldsCase }
  match Regex.parse style (unescape (cs.length + 1) cs) with
  | .ok (r, _) => return some (r, style)
  | .error text => bad text
where
  isSpecial (c : Char) : Bool :=
    "*.[]^$\\/".toList.contains c || (isExtended && "+?\x7b\x7d|()".toList.contains c)
  unescape : Nat → Octets → Octets
    | 0, cs => cs
    | fuel + 1, '\\' :: c :: cs =>
      match escapeOf? c, numberEscape? (c :: cs) with
      | some d, _ => d :: unescape fuel cs
      | none, some (d, cs) => (if isSpecial d then ['\\', d] else [d]) ++ unescape fuel cs
      | none, none => '\\' :: c :: unescape fuel cs
    | fuel + 1, c :: cs => c :: unescape fuel cs
    | _, [] => []

def address? (isExtended : Bool) : Parse (Option Address) := do
  match ← nextSolid with
  | some '$' => return some .last
  | some '/' => return some (← found '/')
  | some '\\' =>
    match ← next with
    | some mark => return some (← found mark)
    | none => bad "unexpected \x60,'"
  | some c =>
    giveBack (some c)
    if c.isDigit then
      let n ← number
      match ← nextSolid with
      | some '~' =>
        let step ← number
        return some (if step = 0 then .line n else .every n step)
      | c =>
        giveBack c
        return some (.line n)
    else return none
  | none => return none
where
  found (mark : Char) : Parse Address := do
    match ← upTo mark true ((← get).chars.length + 1) with
    | none => bad "unterminated address regex"
    | some cs =>
      match ← next with
      | some 'I' => return .found (← patternOf isExtended true cs)
      | some 'M' => return .found (← patternOf isExtended false cs)
      | c =>
        giveBack c
        return .found (← patternOf isExtended false cs)

def rangeEnd (isExtended : Bool) : Parse RangeEnd := do
  match ← nextSolid with
  | some '+' => return .after (← number)
  | some '~' => return .multiple (← number)
  | c =>
    giveBack c
    match ← address? isExtended with
    | some a => return .address a
    | none =>
      let _ ← next
      bad "unexpected \x60,'"

/-- A replacement, whose groups must not be more than there are. -/
def pieces (groups : Nat) : Nat → Octets → Parse (List Piece)
  | 0, _ => return []
  | _, [] => return []
  | fuel + 1, cs => do
    match cs with
    | '&' :: cs => return .group 0 :: (← pieces groups fuel cs)
    | '\\' :: c :: cs =>
      if c.isDigit then
        let n := c.toNat - '0'.toNat
        if n > groups then
          throw ((← get).place, octets "invalid reference \\" ++ [c] ++ octets " on \x60s' command's RHS")
        return .group n :: (← pieces groups fuel cs)
      else if ['U', 'L', 'u', 'l', 'E'].contains c then
        return .letters c :: (← pieces groups fuel cs)
      else match numberEscape? (c :: cs) with
        | some (d, cs) => return .text [d] :: (← pieces groups fuel cs)
        | none =>
          let d := if c = 'n' then '\n' else (escapeOf? c).getD c
          return .text [d] :: (← pieces groups fuel cs)
    | c :: cs => return .text [c] :: (← pieces groups fuel cs)
    | [] => return []

def fileName : Parse Octets := do
  let _ ← takeWhile isBlank
  let name ← takeWhile (· ≠ '\n')
  let _ ← next
  if name = [] then bad "missing filename in r/R/w/W commands"
  return name

structure Flags where
  number : Option Nat := none
  isGlobal : Bool := false
  isPrinted : Bool := false
  foldsCase : Bool := false
  file : Option Octets := none

def flags : Nat → Flags → Parse Flags
  | 0, f => return f
  | fuel + 1, f => do
    match ← next with
    | none | some '\n' | some ';' => return f
    | some '\x7d' =>
      giveBack (some '\x7d')
      return f
    | some '#' =>
      giveBack (some '#')
      return f
    | some 'g' =>
      if f.isGlobal then bad "multiple \x60g' options to \x60s' command"
      flags fuel { f with isGlobal := true }
    | some 'p' =>
      if f.isPrinted then bad "multiple \x60p' options to \x60s' command"
      flags fuel { f with isPrinted := true }
    | some 'i' | some 'I' => flags fuel { f with foldsCase := true }
    | some 'm' | some 'M' | some 'e' => flags fuel f
    | some 'w' => return { f with file := some (← fileName) }
    | some c =>
      if c.isDigit then
        if f.number.isSome then bad "multiple number options to \x60s' command"
        giveBack (some c)
        let n ← number
        if n = 0 then bad "number option to \x60s' command may not be zero"
        flags fuel { f with number := some n }
      else if isBlank c then flags fuel f
      else bad "unknown option to \x60s'"

def replacement (isExtended : Bool) : Parse Replacement := do
  let fuel := (← get).chars.length + 1
  let unterminated : Parse Replacement := bad "unterminated \x60s' command"
  match ← next with
  | none => unterminated
  | some mark =>
    match ← upTo mark true fuel with
    | none => unterminated
    | some pattern =>
      match ← upTo mark false fuel with
      | none => unterminated
      | some text =>
        let f ← flags fuel {}
        let p ← patternOf isExtended f.foldsCase pattern
        let groups := match Regex.parse { isExtended := isExtended } pattern with
          | .ok (_, groups) => groups
          | .error _ => 0
        let groups := if pattern = [] then 9 else groups
        return {
          pattern := p
          pieces := ← pieces groups (text.length + 1) text
          number := f.number.getD 1
          isGlobal := f.isGlobal
          isPrinted := f.isPrinted
          file := f.file }

def mapped : Octets → Octets
  | '\\' :: c :: cs =>
    if c = '\\' then '\\' :: mapped cs
    else if c = 'n' then '\n' :: mapped cs
    else match escapeOf? c with
      | some d => d :: mapped cs
      | none => '\\' :: c :: mapped cs
  | c :: cs => c :: mapped cs
  | [] => []

def charMap : Parse (List (Char × Char)) := do
  let fuel := (← get).chars.length + 1
  let unterminated : Parse (List (Char × Char)) := bad "unterminated \x60y' command"
  match ← next with
  | none => unterminated
  | some mark =>
    match ← upTo mark false fuel with
    | none => unterminated
    | some source =>
      match ← upTo mark false fuel with
      | none => unterminated
      | some target =>
        let (source, target) := (mapped source, mapped target)
        if source.length ≠ target.length then
          bad "strings for \x60y' command are different lengths"
        ending
        return source.zip target

/-- The text of a command up to the first line feed that is not escaped. -/
def textLines : Nat → Parse Octets
  | 0 => return []
  | fuel + 1 => do
    match ← next with
    | none | some '\n' => return ['\n']
    | some '\\' =>
      match ← next with
      | none => return ['\n']
      | some c => return (escapeOf? c).getD (if c = 'n' then '\n' else c) :: (← textLines fuel)
    | some c => return c :: (← textLines fuel)

/-- The text of a command: on its line, or after a backslash on the next ones. -/
def text : Parse Octets := do
  let fuel := (← get).chars.length + 1
  match ← nextSolid with
  | none => bad "expected \\ after \x60a', \x60c' or \x60i'"
  | some '\\' =>
    let blanks ← takeWhile isBlank
    match ← next with
    | some '\n' => textLines fuel
    | none => return []
    | some c =>
      giveBack (some c)
      return blanks ++ (← textLines fuel)
  | some c =>
    giveBack (some c)
    textLines fuel

def label : Parse Octets := do
  let _ ← takeWhile isBlank
  takeWhile fun c => !isSpace c && c ≠ ';' && c ≠ '\x7d'

structure Draft where
  command : Command
  /-- The label that it goes to, or that it is. -/
  label : Option Octets := none

/-- Reads the commands of a script, given those before, the last first, and the places of the open
blocks. -/
def commands (isExtended : Bool) : Nat → List Draft → List Nat → Parse (List Draft)
  | 0, _, _ => bad "script too long"
  | fuel + 1, before, blocks => do
    let _ ← takeWhile fun c => isSpace c || c = ';'
    if (← get).chars = [] then
      if blocks ≠ [] then throw (0, octets "unmatched \x60\x7b'")
      return before.reverse
    let first ← address? isExtended
    let finish ← match first with
      | none => pure none
      | some _ => do
        match ← nextSolid with
        | some ',' => pure (some (← rangeEnd isExtended))
        | c =>
          giveBack c
          pure none
    let letter ← nextSolid
    let isNegated := letter = some '!'
    let letter ← if isNegated then nextSolid else pure letter
    if isNegated ∧ letter = some '!' then bad "multiple \x60!'s"
    let lines : Lines := ⟨first, finish, isNegated⟩
    let isZero : Bool := match first, finish with
      | some (.line 0), some (.address (.found _)) => false
      | some (.line 0), _ => true
      | _, _ => false
    if isZero then bad "invalid usage of line address 0"
    let add (action : Action) (name : Option Octets := none) : Parse (List Draft) :=
      commands isExtended fuel (⟨⟨lines, action⟩, name⟩ :: before) blocks
    let alone : Parse Unit := do if finish.isSome then bad "command only uses one address"
    match letter with
    | none => bad "missing command"
    | some '#' =>
      if first.isSome then bad "comments don't accept any addresses"
      let _ ← takeWhile (· ≠ '\n')
      commands isExtended fuel before blocks
    | some '\x7b' =>
      commands isExtended fuel (⟨⟨lines, .block 0⟩, none⟩ :: before) (before.length :: blocks)
    | some '\x7d' =>
      match blocks with
      | [] => bad "unexpected \x60\x7d'"
      | opening :: blocks =>
        if first.isSome then bad "\x7d doesn't want any addresses"
        ending
        let count := before.length
        let before := before.mapIdx fun i draft =>
          if i + opening + 1 = count then
            { draft with command := { draft.command with action := .block count } }
          else draft
        commands isExtended fuel (⟨⟨lines, .blockEnd⟩, none⟩ :: before) blocks
    | some 'a' => add (.append (← text))
    | some 'i' => add (.insert (← text))
    | some 'c' => add (.change (← text))
    | some ':' =>
      if first.isSome then bad ": doesn't want any addresses"
      let name ← label
      if name = [] then bad "\":\" lacks a label"
      add .label (some name)
    | some 'b' => add (.jump none) (some (← labelEnd))
    | some 't' => add (.jumpIf true none) (some (← labelEnd))
    | some 'T' => add (.jumpIf false none) (some (← labelEnd))
    | some 's' => add (.replace (← replacement isExtended))
    | some 'y' => add (.map (← charMap))
    | some 'r' => add (.readFile (← fileName))
    | some 'R' => add (.readLine (← fileName))
    | some 'w' => add (.writeFile (← fileName))
    | some 'W' => add (.writeFirst (← fileName))
    | some 'q' =>
      alone
      let _ ← takeWhile isBlank
      let status ← number
      ending
      add (.quit true status)
    | some 'Q' =>
      alone
      let _ ← takeWhile isBlank
      let status ← number
      ending
      add (.quit false status)
    | some 'l' =>
      let _ ← takeWhile isBlank
      let width ← takeWhile Char.isDigit
      ending
      add (.show (if width = [] then none else some (naturalOf width)))
    | some 'v' =>
      let _ ← takeWhile fun c => c ≠ '\n' && c ≠ ';'
      commands isExtended fuel before blocks
    | some c =>
      if "=dDgGhHnNpPxzF".toList.contains c then
        ending
        add (.plain c)
      else throw ((← get).place, octets "unknown command: \x60" ++ [c, '\''])
where
  labelEnd : Parse Octets := do
    let name ← label
    ending
    return name

def labelPlace? (name : Octets) (drafts : List Draft) : Option Nat :=
  drafts.findIdx? fun d => match d.command.action with
    | .label => d.label = some name
    | _ => false

/-- Gives jumps their targets; or a label that is missing. -/
def settled (drafts : List Draft) : Except Octets (List Command) :=
  drafts.mapM fun d =>
    let target : Except Octets (Option Nat) := match d.label with
      | none | some [] => .ok none
      | some name => match labelPlace? name drafts with
        | some place => .ok (some place)
        | none => .error name
    match d.command.action with
    | .jump _ => do return { d.command with action := .jump (← target) }
    | .jumpIf hasReplaced _ => do return { d.command with action := .jumpIf hasReplaced (← target) }
    | _ => .ok d.command

end Depot.Host.Tool.Edit
