import Depot.Host.Format
import Depot.Host.Tool
import Depot.Text.Glob

/-! Tools that pass texts on, whole or in part, line by line or not. -/

namespace Depot.Host.Tool

open Files

def filesOf (operands : List Octets) : List Octets := if operands = [] then [['-']] else operands

def eachText (files : List Octets) (f : Octets → Octets → Work Unit) : Work Unit := do
  for file in filesOf files do
    match ← Work.text file with
    | .ok text => f file text
    | .error reason => Work.warn (nameShown file ++ octets ": " ++ reason)

def allText (files : List Octets) : Work Octets := do
  let mut out := []
  for file in filesOf files do
    match ← Work.text file with
    | .ok text => out := text :: out
    | .error reason => Work.warn (nameShown file ++ octets ": " ++ reason)
  return out.reverse.flatten

/-! Whole texts -/

/-- Where the numbering of lines has got to. -/
structure Numbering where
  next : Nat := 1
  /-- The next character begins a line. -/
  isAtStart : Bool := true
  /-- The empty lines before it. -/
  blanks : Nat := 0

def visible (showsTabs : Bool) (c : Char) : Octets :=
  let low (n : Nat) : Octets :=
    if n = 127 then ['^', '?'] else if n < 32 then ['^', Char.ofNat (n + 64)] else [Char.ofNat n]
  if c = '\n' then ['\n']
  else if c = '\t' then if showsTabs then ['^', 'I'] else ['\t']
  else if c.toNat ≥ 128 then ['M', '-'] ++ low (c.toNat - 128)
  else low c.toNat

def decorated (has : Char → Bool) (n : Numbering) (line : Octets) : Octets × Numbering :=
  let isBlank := line = ['\n']
  let isWhole := line.getLast? = some '\n'
  if n.isAtStart ∧ isBlank ∧ has 's' ∧ n.blanks > 0 then ([], n)
  else
    let isNumbered := n.isAtStart && (if has 'b' then !isBlank else has 'n')
    let number := if isNumbered then atRight 6 (digits n.next) ++ ['\t'] else []
    let body := if has 'v' then line.flatMap (visible (has 'T'))
      else if has 'T' then line.flatMap fun c => if c = '\t' then ['^', 'I'] else [c]
      else line
    let body := if has 'E' ∧ isWhole then body.dropLast ++ ['$', '\n'] else body
    (number ++ body,
      ⟨if isNumbered then n.next + 1 else n.next, isWhole,
        if n.isAtStart ∧ isBlank then n.blanks + 1 else 0⟩)

def concatenate : Work Unit := do
  let o ← Options.read "AbeEnstTuv" [.flag 'A' "show-all", .flag 'b' "number-nonblank",
    .flag 'E' "show-ends", .flag 'n' "number", .flag 's' "squeeze-blank",
    .flag 'T' "show-tabs", .flag 'v' "show-nonprinting"] (← read).args
  let has (c : Char) : Bool :=
    match c with
    | 'v' => o.has 'v' || o.has 'A' || o.has 'e' || o.has 't'
    | 'E' => o.has 'E' || o.has 'A' || o.has 'e'
    | 'T' => o.has 'T' || o.has 'A' || o.has 't'
    | c => o.has c
  let isPlain := !("vETnbs".toList.any has)
  let mut numbering : Numbering := {}
  for file in filesOf o.operands do
    match ← Work.text file with
    | .error reason => Work.warn (nameShown file ++ octets ": " ++ reason)
    | .ok text =>
      if isPlain then Work.put text
      else for line in fullLines text do
        let (out, next) := decorated has numbering line
        Work.put out
        numbering := next

def tee : Work Unit := do
  let o ← Options.read "aip" [.flag 'a' "append"] (← read).args
  let text := match ← Work.input with
    | .ok text => text
    | .error _ => []
  for file in o.operands do
    let _ ← Work.change (fun d =>
      let old := if o.has 'a' then (d.read file.toBytes).toOption.getD [] else []
      d.write file.toBytes (old ++ text.toBytes)) (Work.because file)
  Work.put text

def backwards : Work Unit := do
  let o ← Options.read "brs:" [.valued 's' "separator"] (← read).args
  for file in filesOf o.operands do
    match ← Work.text file with
    | .error reason =>
      Work.warn (if reason = octets "Is a directory" then nameShown file ++ octets ": read error: " ++
        reason else octets "failed to open " ++ inShellQuotes file ++ octets " for reading: " ++ reason)
    | .ok text => Work.put (fullLines text).reverse.flatten

def reversed : Work Unit := do
  let o ← Options.read "" [] (← read).args
  for file in filesOf o.operands do
    match ← Work.text file with
    | .error reason => Work.warn (octets "cannot open " ++ file ++ octets ": " ++ reason)
    | .ok text =>
      for line in fullLines text do
        Work.put (if line.getLast? = some '\n' then line.dropLast.reverse ++ ['\n'] else line.reverse)

/-! Parts of texts -/

structure Portion where
  isBytes : Bool := false
  count : Nat := 10
  /-- From the other end: all but so much, or all from so much on. -/
  isTurned : Bool := false

def countOf? (cs : Octets) : Option Nat :=
  let ds := cs.takeWhile Char.isDigit
  let n := naturalOf ds
  if ds = [] then none
  else match String.ofList (cs.drop ds.length) with
    | "" => some n
    | "b" => some (n * 512)
    | "k" | "K" | "KiB" => some (n * 1024)
    | "kB" | "KB" => some (n * 1000)
    | "m" | "M" | "MiB" => some (n * 1048576)
    | "MB" => some (n * 1000000)
    | _ => none

/-- Old options that give a count at once. -/
def oldCount (isTail : Bool) : List Octets → List Octets
  | ('-' :: c :: cs) :: rest =>
    if c.isDigit then (octets "-n" ++ c :: cs) :: rest else ('-' :: c :: cs) :: rest
  | ('+' :: c :: cs) :: rest =>
    if isTail ∧ c.isDigit then (octets "-n+" ++ c :: cs) :: rest else ('+' :: c :: cs) :: rest
  | args => args

def portionOf (isTail : Bool) (o : Options) : Work Portion := do
  match o.last? ['n', 'c'] with
  | none => return {}
  | some letter =>
    let value := (o.value? letter).getD []
    let isBytes := letter = 'c'
    let (isTurned, body) := match isTail, value with
      | false, '-' :: body => (true, body)
      | true, '+' :: body => (true, body)
      | true, '-' :: body => (false, body)
      | _, body => (false, body)
    match countOf? body with
    | some n => return ⟨isBytes, n, isTurned⟩
    | none => Work.die (octets (if isBytes then "invalid number of bytes: "
        else "invalid number of lines: ") ++ inQuotes value)

def Portion.first (p : Portion) (text : Octets) : Octets :=
  if p.isBytes then if p.isTurned then text.take (text.length - p.count) else text.take p.count
  else
    let lines := fullLines text
    (lines.take (if p.isTurned then lines.length - p.count else p.count)).flatten

def Portion.last (p : Portion) (text : Octets) : Octets :=
  if p.isBytes then text.drop (if p.isTurned then p.count - 1 else text.length - p.count)
  else
    let lines := fullLines text
    (lines.drop (if p.isTurned then p.count - 1 else lines.length - p.count)).flatten

/-- Shows a part of each file, under its name if there are more. -/
def showParts (isTail : Bool) : Work Unit := do
  let o ← Options.read "n:c:qvzfF" [.valued 'n' "lines", .valued 'c' "bytes", .flag 'q' "quiet",
    .flag 'q' "silent", .flag 'v' "verbose"] (oldCount isTail (← read).args)
  let p ← portionOf isTail o
  let files := filesOf o.operands
  let hasNames : Bool := match o.last? ['q', 'v'] with
    | some c => c = 'v'
    | none => files.length > 1
  let mut isFirst := true
  for file in files do
    let shown := if file = ['-'] then octets "standard input" else file
    let heading := (if isFirst then [] else ['\n']) ++ octets "==> " ++ shown ++ octets " <==\n"
    let r ← if file = ['-'] then Work.pending else Work.text file
    match r with
    | .error reason =>
      if reason = octets "Is a directory" then
        if hasNames then Work.put heading
        isFirst := false
        Work.warn (octets "error reading " ++ inShellQuotes shown ++ octets ": " ++ reason)
      else
        Work.warn (octets "cannot open " ++ inShellQuotes file ++ octets " for reading: " ++ reason)
    | .ok text =>
      if hasNames then Work.put heading
      isFirst := false
      let part := if isTail then p.last text else p.first text
      if file = ['-'] then
        if isTail ∨ p.isTurned then
          let _ ← Work.input
        else Work.use part.length p.isBytes
      Work.put part

/-! Numbers of lines -/

structure LineNumbers where
  style : Char := 't'
  width : Nat := 6
  separator : Octets := ['\t']
  layout : Octets := ['r', 'n']
  start : Int := 1
  step : Int := 1

def LineNumbers.shown (l : LineNumbers) (n : Int) : Octets :=
  let ds := intDigits n
  if l.layout = ['l', 'n'] then ds ++ List.replicate (l.width - ds.length) ' '
  else if l.layout = ['r', 'z'] then
    if n < 0 then '-' :: List.replicate (l.width - ds.length) '0' ++ ds.drop 1
    else List.replicate (l.width - ds.length) '0' ++ ds
  else atRight l.width ds

def numberLines : Work Unit := do
  let o ← Options.read "b:d:f:h:i:l:n:ps:v:w:" [.valued 'b' "body-numbering",
    .valued 's' "number-separator", .valued 'w' "number-width", .valued 'n' "number-format",
    .valued 'v' "starting-line-number", .valued 'i' "line-increment"] (← read).args
  let integer (letter : Char) (d : Int) : Int := ((o.value? letter).bind integer?).getD d
  let l : LineNumbers :=
    { style := ((o.value? 'b').getD ['t']).headD 't'
      width := (integer 'w' 6).toNat
      separator := (o.value? 's').getD ['\t']
      layout := (o.value? 'n').getD ['r', 'n']
      start := integer 'v' 1
      step := integer 'i' 1 }
  let mut n := l.start
  for file in filesOf o.operands do
    match ← Work.text file with
    | .error reason => Work.warn (nameShown file ++ octets ": " ++ reason)
    | .ok text =>
      for line in bareLines text do
        if line = octets "\\:\\:\\:" ∨ line = octets "\\:\\:" ∨ line = octets "\\:" then
          n := l.start
          Work.put ['\n']
        else if l.style = 'a' ∨ (l.style = 't' ∧ line ≠ []) then
          Work.putLine (l.shown n ++ l.separator ++ line)
          n := n + l.step
        else Work.putLine (List.replicate (l.width + l.separator.length) ' ' ++ line)

/-! Counting -/

structure Counts where
  lines : Nat := 0
  words : Nat := 0
  bytes : Nat := 0
  longest : Nat := 0

def Counts.add (a b : Counts) : Counts :=
  ⟨a.lines + b.lines, a.words + b.words, a.bytes + b.bytes, max a.longest b.longest⟩

def wordCount : Bool → Octets → Nat
  | _, [] => 0
  | isIn, c :: cs =>
    if isSpace c then wordCount false cs
    else (if isIn then 0 else 1) + wordCount true cs

def screenWidth (line : Octets) : Nat :=
  line.foldl (fun n c => if c = '\t' then (n / 8 + 1) * 8 else if isPrintable c then n + 1 else n) 0

def countsOf (text : Octets) : Counts :=
  ⟨text.count '\n', wordCount false text, text.length,
    ((splitAtSep '\n' text).map screenWidth).foldl max 0⟩

def countWords : Work Unit := do
  let o ← Options.read "clLmw" [.flag 'c' "bytes", .flag 'l' "lines", .flag 'm' "chars",
    .flag 'w' "words", .flag 'L' "max-line-length"] (← read).args
  let isDefault := o.found = []
  let columns (c : Counts) : List Nat :=
    (if isDefault || o.has 'l' then [c.lines] else []) ++
      (if isDefault || o.has 'w' then [c.words] else []) ++ (if o.has 'm' then [c.bytes] else []) ++
      (if isDefault || o.has 'c' then [c.bytes] else []) ++ (if o.has 'L' then [c.longest] else [])
  let files := filesOf o.operands
  let d := (← get).disk
  let call ← read
  let sizeOf (file : Octets) : Option (Option Nat) :=
    if file = ['-'] then
      some (if call.canRewind then (call.input.toOption.map List.length) else none)
    else match d.stat file.toBytes with
      | .ok (.file _ data) => some (some data.length)
      | .ok _ => some none
      | .error _ => none
  let sizes := files.filterMap sizeOf
  let total := (sizes.map fun s => s.getD 0).foldl (· + ·) 0
  let width :=
    if files.length = 1 ∧ (columns {}).length = 1 then 1
    else max (digits total).length (if sizes.any Option.isNone then 7 else 1)
  let line (c : Counts) (name : Octets) : Octets :=
    joinWith [' '] ((columns c).map fun n => atRight width (digits n)) ++
      (if name = [] then [] else ' ' :: name)
  let mut sum : Counts := {}
  for file in files do
    let name := if o.operands = [] then [] else file
    match ← Work.text file with
    | .ok text =>
      let c := countsOf text
      sum := sum.add c
      Work.putLine (line c name)
    | .error reason =>
      Work.warn (nameShown file ++ octets ": " ++ reason)
      if reason = octets "Is a directory" then Work.putLine (line {} name)
  if files.length > 1 then Work.putLine (line sum (octets "total"))

/-! Columns -/

/-- Ranges of numbers, ends included; one without a last end goes on. -/
abbrev Ranges := List (Nat × Option Nat)

def inRanges (rs : Ranges) (n : Nat) : Bool :=
  rs.any fun r => r.1 ≤ n && (match r.2 with
    | some last => n ≤ last
    | none => true)

def ranges? (cs : Octets) : Option Ranges :=
  (splitAtSep ',' (cs.map fun c => if c = ' ' then ',' else c)).mapM fun part =>
    let first := part.takeWhile (· ≠ '-')
    let isNumber := fun ds : Octets => ds ≠ [] && ds.all Char.isDigit
    match part.drop first.length with
    | [] => if isNumber first then some (naturalOf first, some (naturalOf first)) else none
    | _ :: last =>
      if first = [] ∧ isNumber last then some (1, some (naturalOf last))
      else if isNumber first ∧ last = [] then some (naturalOf first, none)
      else if isNumber first ∧ isNumber last then some (naturalOf first, some (naturalOf last))
      else none

def cut : Work Unit := do
  let o ← Options.read "b:c:d:f:nsz" [.valued 'b' "bytes", .valued 'c' "characters",
    .valued 'd' "delimiter", .valued 'f' "fields", .flag 's' "only-delimited",
    .flag 'C' "complement", .valued 'O' "output-delimiter"] (← read).args
  let lists := o.found.filter fun f => f.1 ∈ ['b', 'c', 'f']
  let (letter, list) ← match lists with
    | [] => Work.misused (octets "you must specify a list of bytes, characters, or fields")
    | [l] => pure l
    | _ => Work.misused (octets "only one list may be specified")
  let delimiter := (o.value? 'd').getD ['\t']
  if delimiter.length > 1 then Work.misused (octets "the delimiter must be a single character")
  if (o.value? 'd').isSome ∧ letter ≠ 'f' then
    Work.misused (octets "an input delimiter may be specified only when operating on fields")
  let isField := letter = 'f'
  let rs ← match ranges? list with
    | some rs => pure rs
    | none => Work.misused (octets (if isField then "invalid field value " else
        "invalid byte/character position ") ++ inQuotes (list.dropWhile Char.isDigit))
  if rs.any fun r => r.1 = 0 ∨ r.2 = some 0 then
    Work.misused (octets (if isField then "fields are numbered from 1"
      else "byte/character positions are numbered from 1"))
  if rs.any fun r => r.2.any fun last => last < r.1 then
    Work.misused (octets "invalid decreasing range")
  let isKept (n : Nat) : Bool := inRanges rs n != o.has 'C'
  let sep := delimiter.headD '\x00'
  eachText o.operands fun _ text => do
    for line in bareLines text do
      if isField then
        let fields := splitAtSep sep line
        if fields.length = 1 then
          if !o.has 's' then Work.putLine line
        else
          let kept := (fields.zipIdx.filter fun f => isKept (f.2 + 1)).map (·.1)
          Work.putLine (joinWith ((o.value? 'O').getD [sep]) kept)
      else
        let kept := line.zipIdx.filter fun c => isKept (c.2 + 1)
        match o.value? 'O' with
        | none => Work.putLine (kept.map (·.1))
        | some mark =>
          let (out, _) := kept.foldl (fun (out, before) (c, i) =>
            (out ++ (if before = 0 ∨ before = i then [] else mark) ++ [c], i + 1)) (([] : Octets), 0)
          Work.putLine out

/-- The texts between fields, one after another. -/
def pasteMarks (cs : Octets) : List Octets := go (cs.length + 1) cs
where
  go : Nat → Octets → List Octets
    | 0, _ => []
    | _ + 1, [] => []
    | fuel + 1, '\\' :: c :: rest =>
      (match c with
        | 'n' => ['\n']
        | 't' => ['\t']
        | '0' => []
        | c => [c]) :: go fuel rest
    | fuel + 1, c :: rest => [c] :: go fuel rest

/-- Joins texts with marks that are used in turn. -/
def joinInTurn (marks : List Octets) : Nat → List Octets → Octets
  | _, [] => []
  | _, [t] => t
  | i, t :: ts => t ++ (marks[i % marks.length]?).getD [] ++ joinInTurn marks (i + 1) ts

def paste : Work Unit := do
  let o ← Options.read "d:sz" [.valued 'd' "delimiters", .flag 's' "serial"] (← read).args
  let marks := pasteMarks ((o.value? 'd').getD ['\t'])
  let marks := if marks = [] then [[]] else marks
  let mut all : List (List Octets) := []
  let files := filesOf o.operands
  let inputs := (files.filter (· = ['-'])).length
  let mut inputLines : List Octets := []
  if inputs > 0 then
    if let .ok text := ← Work.input then inputLines := bareLines text
  let mut turn := 0
  for file in files do
    if file = ['-'] then
      let t := turn
      let mine := if o.has 's' then if t = 0 then inputLines else []
        else (inputLines.zipIdx.filter fun l => l.2 % inputs = t).map (·.1)
      all := all ++ [mine]
      turn := turn + 1
    else match ← Work.text file with
      | .ok text => all := all ++ [bareLines text]
      | .error reason => Work.die (nameShown file ++ octets ": " ++ reason)
  if o.has 's' then
    for lines in all do
      Work.putLine (joinInTurn marks 0 lines)
  else
    let rows := (all.map List.length).foldl max 0
    for i in List.range rows do
      Work.putLine (joinInTurn marks 0 (all.map fun lines => lines.getD i []))

/-- Breaks a line at a width; at blanks, if there are some. -/
def foldLine (width : Nat) (atBlanks : Bool) : Nat → Octets → List Octets
  | 0, line => [line]
  | fuel + 1, line =>
    if line.length ≤ width then [line]
    else
      let part := line.take width
      let kept := (part.reverse.dropWhile (· ≠ ' ')).reverse
      let part := if atBlanks ∧ kept ≠ [] then kept else part
      part :: foldLine width atBlanks fuel (line.drop part.length)

def fold : Work Unit := do
  let args := (← read).args.map fun a => match a with
    | '-' :: c :: cs => if c.isDigit then octets "-w" ++ c :: cs else a
    | _ => a
  let o ← Options.read "bsw:" [.valued 'w' "width", .flag 's' "spaces", .flag 'b' "bytes"] args
  let width ← match o.value? 'w' with
    | none => pure 80
    | some w => match countOf? w with
      | some 0 | none => Work.die (octets "invalid number of columns: " ++ inQuotes w)
      | some n => pure n
  eachText o.operands fun _ text => do
    let out := (splitAtSep '\n' text).map fun line =>
      joinWith ['\n'] (foldLine width (o.has 's') (line.length + 1) line)
    Work.put (joinWith ['\n'] out)

def expandTabs : Work Unit := do
  let o ← Options.read "it:" [.flag 'i' "initial", .valued 't' "tabs"] (← read).args
  let stops ← match o.value? 't' with
    | none => pure [8]
    | some text =>
      let parts := splitAtSep ',' text
      if parts.all fun p => p ≠ [] && p.all Char.isDigit then pure (parts.map naturalOf)
      else Work.die (octets "tab size contains invalid character(s): " ++ inQuotes text)
  let gap (column : Nat) : Nat :=
    match stops with
    | [n] => if n = 0 then 1 else n - column % n
    | stops => match stops.find? (· > column) with
      | some stop => stop - column
      | none => 1
  eachText o.operands fun _ text => do
    let (out, _) := text.foldl (fun (out, column, isInitial) c =>
      if c = '\t' ∧ (isInitial ∨ !o.has 'i') then
        (List.replicate (gap column) ' ' :: out, column + gap column, isInitial)
      else if c = '\n' then (['\n'] :: out, 0, true)
      else ([c] :: out, column + 1, isInitial && (c = ' ' || c = '\t')))
      (([] : List Octets), 0, true)
    Work.put out.reverse.flatten

/-! Characters -/

/-- An item of a set of characters: a list, or one that fills the set up. -/
inductive SetItem where
  | chars (cs : Octets)
  | fill (c : Char)

def allChars : Octets := (List.range 256).map Char.ofNat

def setChar : Octets → Option (Char × Octets)
  | [] => none
  | '\\' :: rest =>
    match rest with
    | [] => some ('\\', [])
    | c :: more =>
      if isOctal c then
        let (c, rest) := octalByte rest
        some (c, rest)
      else match escapeLetter? c with
        | some e => if c = 'e' then some (c, more) else some (e, more)
        | none => some (c, more)
  | c :: rest => some (c, rest)

def setItems : Nat → Octets → Except Octets (List SetItem)
  | 0, _ => .ok []
  | _ + 1, [] => .ok []
  | fuel + 1, cs => do
    let more (item : SetItem) (rest : Octets) : Except Octets (List SetItem) := do
      return item :: (← setItems fuel rest)
    let single : Except Octets (List SetItem) :=
      match setChar cs with
      | none => .ok []
      | some (a, '-' :: rest) =>
        match setChar rest with
        | none => do return .chars [a] :: (← setItems fuel ['-'])
        | some (b, rest) =>
          if b < a then
            .error (octets "range-endpoints of '" ++ [a, '-', b] ++
              octets "' are in reverse collating sequence order")
          else more (.chars ((List.range (b.toNat + 1 - a.toNat)).map fun i =>
            Char.ofNat (a.toNat + i))) rest
      | some (a, rest) => more (.chars [a]) rest
    match cs with
    | '[' :: ':' :: rest =>
      let name := rest.takeWhile fun c => c.isAlpha
      match rest.drop name.length with
      | ':' :: ']' :: rest =>
        match Glob.classRanges? name with
        | some ranges =>
          more (.chars (allChars.filter fun c => ranges.any fun r => r.1 ≤ c && c ≤ r.2)) rest
        | none => .error (octets "invalid character class " ++ inQuotes name)
      | _ => single
    | '[' :: '=' :: c :: '=' :: ']' :: rest => more (.chars [c]) rest
    | '[' :: rest =>
      match setChar rest with
      | some (c, '*' :: rest) =>
        let ds := rest.takeWhile Char.isDigit
        match rest.drop ds.length with
        | ']' :: rest =>
          let n := if ds.head? = some '0' then valueOf 8 ds else naturalOf ds
          if n = 0 then more (.fill c) rest else more (.chars (List.replicate n c)) rest
        | _ => single
      | _ => single
    | _ => single

/-- The characters of a set that has a length to fill. -/
def setChars (length : Nat) (items : List SetItem) : Octets :=
  let fixed := (items.map fun i => match i with
    | .chars cs => cs.length
    | .fill _ => 0).foldl (· + ·) 0
  items.flatMap fun i => match i with
    | .chars cs => cs
    | .fill c => List.replicate (length - fixed) c

/-- Runs of a character of a set become one. -/
def squeeze (isIn : Char → Bool) : Option Char → Octets → Octets
  | _, [] => []
  | before, c :: cs =>
    if before = some c ∧ isIn c then squeeze isIn before cs else c :: squeeze isIn (some c) cs

def translate : Work Unit := do
  let o ← Options.read "cCdst" [.flag 'c' "complement", .flag 'd' "delete",
    .flag 's' "squeeze-repeats", .flag 't' "truncate-set1"] (← read).args true
  let isTurned := o.has 'c' || o.has 'C'
  let chars (length : Nat) (set : Octets) : Work Octets := do
    match setItems (set.length + 1) set with
    | .ok items => return setChars length items
    | .error reason => Work.die reason
  let table (set : Octets) : Array Bool :=
    set.foldl (fun t c => t.setIfInBounds c.toNat true) (Array.replicate 256 false)
  let isIn (t : Array Bool) (c : Char) : Bool := t.getD c.toNat false
  match o.operands with
  | [] => Work.misused (octets "missing operand")
  | first :: rest =>
    let sources ← chars 0 first
    let sources := if isTurned then allChars.filter fun c => !sources.contains c else sources
    let sourceTable := table sources
    let missing (text : String) : Work Unit := do
      Work.warn (octets "missing operand after " ++ inQuotes first)
      Work.putError (octets text)
      Work.putError (octets "Try '" ++ (← read).name ++ octets " --help' for more information.\n")
      throw 1
    let extra (operand : Octets) : Work Unit := do
      Work.warn (octets "extra operand " ++ inQuotes operand)
      if o.has 'd' ∧ !o.has 's' ∧ o.operands.length = 2 then
        Work.putError (octets "Only one string may be given when deleting without squeezing repeats.\n")
      Work.putError (octets "Try '" ++ (← read).name ++ octets " --help' for more information.\n")
      throw 1
    if let [] := rest then
      if o.has 'd' ∧ o.has 's' then
        missing "Two strings must be given when both deleting and squeezing repeats.\n"
      else if !o.has 'd' ∧ !o.has 's' then
        missing "Two strings must be given when translating.\n"
    if let operand :: _ := rest.drop 1 then extra operand
    if o.has 'd' ∧ !o.has 's' then
      if let operand :: _ := rest then extra operand
    let text := (← Work.input).toOption.getD []
    match rest with
    | [] =>
      if o.has 'd' then Work.put (text.filter fun c => !isIn sourceTable c)
      else Work.put (squeeze (isIn sourceTable) none text)
    | second :: _ =>
      let targets ← chars sources.length second
      let targetTable := table targets
      if o.has 'd' then
        Work.put (squeeze (isIn targetTable) none (text.filter fun c => !isIn sourceTable c))
      else
        if targets = [] ∧ !o.has 't' then
          Work.die (octets "when not truncating set1, string2 must be non-empty")
        let last := targets.getLastD '\x00'
        let pairs := if o.has 't' then sources.zip targets
          else sources.zip (targets ++ List.replicate (sources.length - targets.length) last)
        let map := pairs.foldl (fun (t : Array Char) p => t.setIfInBounds p.1.toNat p.2)
          allChars.toArray
        let out := text.map fun c => map.getD c.toNat c
        Work.put (if o.has 's' then squeeze (isIn targetTable) none out else out)

end Depot.Host.Tool
