import Depot.Host.Tool.EditScript
import Depot.Host.Tool.Files

/-! Edits of lines by the commands of a script, as `sed` carries them out. -/

namespace Depot.Host.Tool.Edit

open Files

/-- A line without the line feed that may have ended it. -/
structure Line where
  text : Octets
  isWhole : Bool := true

structure Coming where
  line : Line
  file : Octets

/-- Text to come out before the next line is read. -/
inductive Queued where
  | text (cs : Octets)
  | file (name : Octets)

structure Editing where
  coming : List Coming
  number : Nat := 0
  file : Octets := []
  space : Line := ⟨[], true⟩
  hold : Line := ⟨[], true⟩
  queue : List Queued := []
  /-- The ranges that are open, by the numbers of their commands, with their last lines if these are
  known. -/
  ranges : List (Nat × Option Nat) := []
  hasReplaced : Bool := false
  lastPattern : Pattern := none
  /-- The files that are read line by line, with what is left of them. -/
  readers : List (Octets × List Octets) := []
  /-- What has come out, the last piece first. -/
  out : List Octets := []
  /-- The last line that came out has no line feed. -/
  isOpen : Bool := false

abbrev Editor := StateT Editing Work

/-- What a command does to the script. -/
inductive Step where
  | next
  | goTo (place : Nat)
  /-- Ends the cycle. -/
  | finish (isPrinted : Bool)
  /-- Begins a cycle with what is left of the line. -/
  | restart
  | quit (isPrinted : Bool) (status : Nat)

structure Setup where
  program : Array Command
  isQuiet : Bool
  delimiter : Char
  width : Nat

def emit (cs : Octets) : Editor Unit := modify fun e =>
  { e with out := (if e.isOpen then '\n' :: cs else cs) :: e.out, isOpen := false }

/-- Puts a line out, with its end if it has one. -/
def emitLine (s : Setup) (l : Line) : Editor Unit := do
  emit (l.text ++ if l.isWhole then [s.delimiter] else [])
  modify fun e => { e with isOpen := !l.isWhole }

def addTo (s : Setup) (name : Octets) (l : Line) : Editor Unit := do
  if name = octets "/dev/stdout" then emitLine s l
  else if name = octets "/dev/stderr" then Work.putError (l.text ++ [s.delimiter])
  else
    let _ ← Work.change (fun d =>
      let old := (d.read name.toBytes).toOption.getD []
      d.write name.toBytes (old ++ (l.text ++ if l.isWhole then [s.delimiter] else []).toBytes))
      fun e => octets "couldn't open file " ++ name ++ octets ": " ++ Work.errnoText e

def flush : Editor Unit := do
  let queue := (← get).queue
  modify fun e => { e with queue := [] }
  for q in queue.reverse do
    match q with
    | .text cs => emit cs
    | .file name =>
      if let .ok data := (← getThe Bench).disk.read name.toBytes then
        if data ≠ [] then emit (.ofBytes data)

/-- Takes the next line, after the text in the pattern space if there is to be more than one. -/
def advance (s : Setup) (isAdded : Bool) : Editor Bool := do
  match (← get).coming with
  | [] => return false
  | c :: coming =>
    flush
    modify fun e => { e with
      coming := coming
      number := e.number + 1
      file := c.file
      hasReplaced := false
      space := if isAdded then ⟨e.space.text ++ s.delimiter :: c.line.text, c.line.isWhole⟩ else c.line }
    return true

/-- The expression of a pattern, which is the one used last if there is none. -/
def resolve (p : Pattern) : Editor (Regex × Regex.Style) := do
  match p with
  | some r =>
    modify fun e => { e with lastPattern := some r }
    return r
  | none =>
    match (← get).lastPattern with
    | some r => return r
    | none => Work.die (octets "no previous regular expression")

def isAt : Address → Editor Bool
  | .line n => do return (← get).number = n
  | .last => do return (← get).coming.isEmpty
  | .every first step => do
    let n := (← get).number
    return n ≥ first && (n - first) % step = 0
  | .found p => do
    let (r, style) ← resolve p
    return (Regex.search style r (← get).space.text.toArray 0).isSome

/-- The command is for the line at hand. A range is open from its first line to its last. -/
def isChosen (place : Nat) (lines : Lines) : Editor Bool := do
  let n := (← get).number
  let close : Editor Unit := modify fun e => { e with ranges := assocErase place e.ranges }
  let opened (finish : Option Nat) : Editor Unit :=
    modify fun e => { e with ranges := assocSet place finish e.ranges }
  let chosen ← match lines.first, lines.finish with
    | none, _ => pure true
    | some first, none => isAt first
    | some first, some finish =>
      match assoc? place (← get).ranges, finish with
      | none, _ => do
        if ← isAt first then
          match finish with
          | .address (.line m) => if m > n then opened (some m)
          | .address _ => opened none
          | .after m => if m > 0 then opened (some (n + m))
          | .multiple m => if m > 0 ∧ n % m ≠ 0 then opened (some ((n + m - 1) / m * m))
          pure true
        else pure false
      | some (some m), _ => do
        if n ≥ m then close
        pure (decide (n ≤ m))
      | some none, .address a => do
        if ← isAt a then close
        pure true
      | some none, _ => pure true
  return chosen != lines.isNegated

/-! Replacements -/

structure Letters where
  mode : Char := 'E'
  once : Char := 'E'

def letterIn (mode : Char) (c : Char) : Char :=
  if mode = 'U' ∨ mode = 'u' then c.toUpper else if mode = 'L' ∨ mode = 'l' then c.toLower else c

/-- The text that comes in the place of a match. -/
def filled (cs : Array Char) (start finish : Nat) (gs : Regex.Groups) :
    Letters → List Piece → Octets × Letters
  | l, [] => ([], l)
  | l, p :: ps =>
    let put (text : Octets) : Octets × Letters :=
      let (shown, l) : Octets × Letters := match text with
        | [] => ([], l)
        | c :: rest =>
          let first := if l.once = 'E' then letterIn l.mode c else letterIn l.once c
          (first :: rest.map (letterIn l.mode), { l with once := 'E' })
      let (more, l) := filled cs start finish gs l ps
      (shown ++ more, l)
    match p with
    | .text text => put text
    | .group 0 => put (cs.extract start finish).toList
    | .group n => put (Regex.groupText cs gs n)
    | .letters mode =>
      let l := if mode = 'E' then {} else if mode = 'u' ∨ mode = 'l' then { l with once := mode }
        else { mode := mode }
      filled cs start finish gs l ps

/-- Replaces matches from a place on. An empty match right after another one is none. -/
def replaced (r : Replacement) (regex : Regex) (style : Regex.Style) (cs : Array Char) :
    Nat → Nat → Nat → Option Nat → Letters → Octets × Bool
  | 0, i, _, _, _ => ((cs.extract i cs.size).toList, false)
  | fuel + 1, i, count, previous, letters =>
    match if i ≤ cs.size then Regex.search style regex cs i else none with
    | none => ((cs.extract i cs.size).toList, false)
    | some (a, b, gs) =>
      let before := (cs.extract i a).toList
      let rest := fun letters count =>
        if a = b then
          let (more, isDone) := replaced r regex style cs fuel (b + 1) count (some b) letters
          ((cs.extract b (b + 1)).toList ++ more, isDone)
        else replaced r regex style cs fuel b count (some b) letters
      if a = b ∧ previous = some a then
        let (more, isDone) := rest letters count
        (before ++ more, isDone)
      else if count + 1 < r.number then
        let (more, isDone) := rest letters (count + 1)
        (before ++ (cs.extract a b).toList ++ more, isDone)
      else
        let (text, letters) := filled cs a b gs {} r.pieces
        if r.isGlobal then (before ++ text ++ (rest letters (count + 1)).1, true)
        else (before ++ text ++ (cs.extract b cs.size).toList, true)

/-! Commands -/

/-- A line as it can be seen, folded to a width. -/
def shownLine (width : Nat) (cs : Octets) : Octets :=
  let pieces := cs.map fun c =>
    if c = '\\' then ['\\', '\\'] else if isPrintable c then [c] else escaped c
  let (out, _) := pieces.foldl (fun (out, column) piece =>
    if width > 0 ∧ column + piece.length > width - 1 then (piece :: ['\\', '\n'] :: out, piece.length)
    else (piece :: out, column + piece.length)) (([] : List Octets), 0)
  out.reverse.flatten ++ ['$', '\n']

def plain (s : Setup) (letter : Char) : Editor Step := do
  let e ← get
  let text := e.space.text
  let (firstPart, rest) := (text.takeWhile (· ≠ s.delimiter), text.dropWhile (· ≠ s.delimiter))
  match letter with
  | '=' =>
    emit (digits e.number ++ ['\n'])
    return .next
  | 'd' => return .finish false
  | 'D' =>
    if rest = [] then return .finish false
    set { e with space := { e.space with text := rest.tail } }
    return .restart
  | 'g' =>
    set { e with space := e.hold }
    return .next
  | 'G' =>
    set { e with space := ⟨text ++ s.delimiter :: e.hold.text, e.hold.isWhole⟩ }
    return .next
  | 'h' =>
    set { e with hold := e.space }
    return .next
  | 'H' =>
    set { e with hold := ⟨e.hold.text ++ s.delimiter :: text, e.space.isWhole⟩ }
    return .next
  | 'x' =>
    set { e with space := e.hold, hold := e.space }
    return .next
  | 'n' =>
    if e.coming.isEmpty then return .finish true
    if !s.isQuiet then emitLine s e.space
    let _ ← advance s false
    return .next
  | 'N' =>
    if e.coming.isEmpty then return .finish true
    let _ ← advance s true
    return .next
  | 'p' =>
    emitLine s e.space
    return .next
  | 'P' =>
    emitLine s (if rest = [] then e.space else ⟨firstPart, true⟩)
    return .next
  | 'z' =>
    set { e with space := { e.space with text := [] } }
    return .next
  | 'F' =>
    emit (e.file ++ ['\n'])
    return .next
  | _ => return .next

def act (s : Setup) (place : Nat) (action : Action) : Editor Step := do
  let e ← get
  match action with
  | .block _ | .blockEnd | .label => return .next
  | .jump (some target) => return .goTo target
  | .jump none => return .finish true
  | .jumpIf hasReplaced target =>
    if e.hasReplaced = hasReplaced then
      if hasReplaced then set { e with hasReplaced := false }
      match target with
      | some target => return .goTo target
      | none => return .finish true
    else
      set { e with hasReplaced := false }
      return .next
  | .append text =>
    set { e with queue := .text text :: e.queue }
    return .next
  | .insert text =>
    emit text
    return .next
  | .change text =>
    if (assoc? place e.ranges).isNone then emit text
    return .finish false
  | .replace r =>
    let (regex, style) ← resolve r.pattern
    let cs := e.space.text.toArray
    let (text, isDone) := replaced r regex style cs (cs.size + 2) 0 0 none {}
    if isDone then
      let space : Line := { e.space with text := text }
      modify fun e => { e with space := space, hasReplaced := true }
      if r.isPrinted then emitLine s space
      if let some name := r.file then addTo s name space
    return .next
  | .map pairs =>
    let text := e.space.text.map fun c => (assoc? c pairs).getD c
    set { e with space := { e.space with text := text } }
    return .next
  | .readFile name =>
    set { e with queue := .file name :: e.queue }
    return .next
  | .readLine name =>
    let data := (← getThe Bench).disk.read name.toBytes
    let lines := (assoc? name e.readers).getD (fullLines (.ofBytes (data.toOption.getD [])))
    let queue := match lines with
      | line :: _ => .text line :: e.queue
      | [] => e.queue
    set { e with queue := queue, readers := assocSet name lines.tail e.readers }
    return .next
  | .writeFile name =>
    addTo s name e.space
    return .next
  | .writeFirst name =>
    addTo s name ⟨e.space.text.takeWhile (· ≠ s.delimiter), true⟩
    return .next
  | .quit isPrinted status => return .quit isPrinted status
  | .show width =>
    emit (shownLine (width.getD s.width) e.space.text)
    return .next
  | .plain letter => plain s letter

/-- Runs the commands from a place on, up to what ends the cycle. -/
def commandsFrom (s : Setup) : Nat → Nat → Editor Step
  | 0, _ => return .finish true
  | fuel + 1, place => do
    match s.program[place]? with
    | none => return .finish true
    | some c =>
      if ← isChosen place c.lines then
        match ← act s place c.action with
        | .next => commandsFrom s fuel (place + 1)
        | .goTo target => commandsFrom s fuel target
        | step => return step
      else match c.action with
        | .block finish => commandsFrom s fuel (finish + 1)
        | _ => commandsFrom s fuel (place + 1)

def commandLimit : Nat := 10000000

/-- Edits the lines to come, one after another; gives the status if a command ends it all. -/
def cycles (s : Setup) : Nat → Bool → Editor (Option Nat)
  | 0, _ => return none
  | fuel + 1, isRestart => do
    let isThere ← if isRestart then pure true else advance s false
    if !isThere then return none
    let print (isPrinted : Bool) : Editor Unit := do
      if isPrinted ∧ !s.isQuiet then emitLine s (← get).space
      flush
    match ← commandsFrom s commandLimit 0 with
    | .quit isPrinted status =>
      if isPrinted then print true
      return some status
    | .restart =>
      flush
      cycles s fuel true
    | .finish isPrinted =>
      print isPrinted
      cycles s fuel false
    | _ => return none

/-! The tool -/

/-- A part of a script: the name of the file that it is from, or its number among the others. -/
structure ScriptPart where
  name : Octets
  number : Nat
  text : Octets

def compile (isExtended : Bool) (parts : List ScriptPart) : Work (List Command) := do
  let all := joinWith ['\n'] (parts.map (·.text))
  match (commands isExtended (all.length + 2) [] []).run { chars := all } with
  | .ok (drafts, _) =>
    match settled drafts with
    | .ok program => return program
    | .error name => Work.die (octets "can't find label for jump to \x60" ++ name ++ ['\'']) 4
  | .error (place, reason) =>
    let (part, place) := locate place parts
    if part.name = [] then
      Work.die (octets "-e expression #" ++ digits part.number ++ octets ", char " ++ digits place ++
        octets ": " ++ reason)
    else
      Work.die (octets "file " ++ part.name ++ octets " line " ++
        digits ((part.text.take place).count '\n' + 1) ++ octets ": " ++ reason)
where
  /-- The part that a place is in, and where in it. -/
  locate (place : Nat) : List ScriptPart → ScriptPart × Nat
    | [] => (⟨[], 1, []⟩, place)
    | [part] => (part, place)
    | part :: parts =>
      if place ≤ part.text.length then (part, place) else locate (place - part.text.length - 1) parts

def linesOf (delimiter : Char) (file text : Octets) : List Coming :=
  let parts := splitAtSep delimiter text
  let last := parts.getLastD []
  (parts.dropLast.map fun l => ⟨⟨l, true⟩, file⟩) ++
    if last = [] then [] else [⟨⟨last, false⟩, file⟩]

def filesWritten (program : List Command) : List Octets :=
  (program.filterMap fun c => match c.action with
    | .writeFile name | .writeFirst name => some name
    | .replace r => r.file
    | _ => none).filter fun name => !(octets "/dev/").isPrefixOf name

/-- The ranges that are open before the first line. -/
def firstRanges (program : List Command) : List (Nat × Option Nat) :=
  (program.zipIdx).filterMap fun (c, i) => match c.lines.first, c.lines.finish with
    | some (.line 0), some _ => some (i, none)
    | _, _ => none

end Edit

open Edit Files in
def edit : Work Unit := do
  modify fun b => { b with
    usage := octets "Usage: sed [OPTION]... \x7bscript-only-if-no-other-script\x7d [input-file]...\n" }
  let args := (← read).args.map fun a => if a = octets "-i" then octets "--in-place" else
    match a with
    | '-' :: 'i' :: ending => octets "--in-place=" ++ ending
    | a => a
  let o ← Options.read "nre:f:El:suz" [.flag 'n' "quiet", .flag 'n' "silent", .valued 'e' "expression",
    .valued 'f' "file", .flag 'E' "regexp-extended", .loose 'i' "in-place", .flag 's' "separate",
    .flag 'z' "null-data", .flag 'u' "unbuffered", .valued 'l' "line-length", .flag 'P' "posix"] args
  let given := o.found.filter fun f => f.1 = 'e' || f.1 = 'f'
  let (given, files) ← if given ≠ [] then pure (given, o.operands)
    else match o.operands with
      | [] => Work.help
      | script :: files => pure ([('e', script)], files)
  let mut parts : List ScriptPart := []
  for (c, value) in given do
    if c = 'e' then
      parts := parts ++ [⟨[], (parts.filter fun p => p.name = []).length + 1, value⟩]
    else match ← Work.text value with
      | .ok text =>
        let text := if text.getLast? = some '\n' then text.dropLast else text
        parts := parts ++ [⟨value, 0, text⟩]
      | .error reason => Work.die (octets "couldn't open file " ++ value ++ octets ": " ++ reason) 4
  let isQuiet := o.has 'n' || (match parts.head? with
    | some part => part.text = ['#', 'n'] || (octets "#n\n").isPrefixOf part.text
    | none => false)
  let program ← compile (o.has 'E' || o.has 'r') parts
  for name in filesWritten program do
    let _ ← Work.change (fun d => d.write name.toBytes []) fun e =>
      octets "couldn't open file " ++ name ++ octets ": " ++ Work.errnoText e
  let delimiter := if o.has 'z' then '\x00' else '\n'
  let s : Setup := ⟨program.toArray, isQuiet, delimiter, ((o.value? 'l').map naturalOf).getD 70⟩
  let inPlace := o.value? 'i'
  let mut texts : List (Octets × List Coming) := []
  let mut isBroken := false
  for file in if files = [] then [['-']] else files do
    if isBroken then pure ()
    else if inPlace.isSome ∧ (← isDirectory file) then
      Work.warn (octets "couldn't edit " ++ file ++ octets ": not a regular file") 4
    else match ← Work.text file with
      | .ok text => texts := texts ++ [(file, linesOf delimiter file text)]
      | .error reason =>
        if reason = octets "Is a directory" then
          Work.warn (octets "read error on " ++ file ++ octets ": " ++ reason) 4
          isBroken := true
        else Work.warn (octets "can't read " ++ file ++ octets ": " ++ reason) 2
  let groups := if inPlace.isSome ∨ o.has 's' then texts
    else [(['-'], texts.flatMap (·.2))]
  let mut state : Editing := { coming := [], ranges := firstRanges program }
  let mut ending : Option Nat := none
  for (file, lines) in groups do
    if ending.isNone then
      let fresh : Editing := { state with
        coming := lines
        number := if inPlace.isSome ∨ o.has 's' then 0 else state.number }
      let (status, after) ← (cycles s (lines.length + (lines.foldl (fun n c => n + c.line.text.length) 0) + 2)
        false).run fresh
      ending := status
      state := after
      if let some suffix := inPlace then
        let old := (← getThe Bench).disk.read file.toBytes
        if suffix ≠ [] then
          let _ ← Work.change (fun d => d.write (file ++ suffix).toBytes (old.toOption.getD []))
            (Work.because file)
        let new : Octets := after.out.reverse.flatten
        let _ ← Work.change (fun d => d.write file.toBytes new.toBytes) (Work.because file)
        state := { after with out := [], isOpen := false }
  Work.put state.out.reverse.flatten
  if let some status := ending then
    modify fun b => { b with status := if status = 0 then b.status else status }

end Depot.Host.Tool
