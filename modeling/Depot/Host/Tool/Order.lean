import Depot.Host.Tool.Lines

/-! Tools that compare lines: they put them in order, or look for equal ones. -/

namespace Depot.Host.Tool

open Files

/-! Keys -/

structure KeyRules where
  isNumeric : Bool := false
  isGeneral : Bool := false
  isHuman : Bool := false
  isVersion : Bool := false
  isMonth : Bool := false
  foldsCase : Bool := false
  isReversed : Bool := false
  dropsBlanks : Bool := false
  isDictionary : Bool := false
  skipsHidden : Bool := false

/-- Where a key begins and ends: a field and a character of it, counted from one. -/
structure Key where
  field : Nat
  char : Nat := 1
  lastField : Option Nat := none
  /-- The last character; the end of the field if it is zero. -/
  lastChar : Nat := 0
  dropsBlanksAtStart : Bool := false
  dropsBlanksAtEnd : Bool := false
  rules : KeyRules := {}

def KeyRules.addLetter (r : KeyRules) : Char → Option KeyRules
  | 'n' => some { r with isNumeric := true }
  | 'g' => some { r with isGeneral := true }
  | 'h' => some { r with isHuman := true }
  | 'V' => some { r with isVersion := true }
  | 'M' => some { r with isMonth := true }
  | 'f' => some { r with foldsCase := true }
  | 'r' => some { r with isReversed := true }
  | 'b' => some { r with dropsBlanks := true }
  | 'd' => some { r with isDictionary := true }
  | 'i' => some { r with skipsHidden := true }
  | _ => none

/-- A field and a character of it, the letters after them, and the rest. -/
def keyPlace? (cs : Octets) : Option (Nat × Option Nat × Octets × Octets) :=
  let ds := cs.takeWhile Char.isDigit
  if ds = [] then none
  else
    let (char, rest) := match cs.drop ds.length with
      | '.' :: rest =>
        let cs := rest.takeWhile Char.isDigit
        (some (naturalOf cs), rest.drop cs.length)
      | rest => (none, rest)
    let letters := rest.takeWhile Char.isAlpha
    some (naturalOf ds, char, letters, rest.drop letters.length)

def key? (cs : Octets) : Option Key := do
  let (field, char, letters, rest) ← keyPlace? cs
  if field = 0 ∨ char = some 0 then none
  let rules ← letters.foldlM KeyRules.addLetter ({} : KeyRules)
  let start : Key :=
    { field := field, char := char.getD 1, dropsBlanksAtStart := rules.dropsBlanks, rules := rules }
  match rest with
  | [] => return start
  | ',' :: rest =>
    let (last, lastChar, letters, rest) ← keyPlace? rest
    if rest ≠ [] ∨ last = 0 then none
    let rules ← letters.foldlM KeyRules.addLetter rules
    return { start with
      lastField := some last
      lastChar := lastChar.getD 0
      dropsBlanksAtEnd := letters.contains 'b'
      rules := rules }
  | _ => none

/-- Fields are separated by a character, or each begins with the blanks before it. -/
def sortFields (separator : Option Char) (line : Octets) : List Octets :=
  match separator with
  | some c => splitAtSep c line
  | none => go (line.length + 1) line
where
  isBlank (c : Char) : Bool := c = ' ' || c = '\t'
  go : Nat → Octets → List Octets
    | 0, _ => []
    | _ + 1, [] => []
    | fuel + 1, cs =>
      let blanks := cs.takeWhile isBlank
      let word := (cs.drop blanks.length).takeWhile fun c => !isBlank c
      (blanks ++ word) :: go fuel (cs.drop (blanks.length + word.length))

def Key.part (k : Key) (separator : Option Char) (line : Octets) : Octets :=
  let isBlank := fun c : Char => c = ' ' || c = '\t'
  let fields := sortFields separator line
  let width := if separator.isSome then 1 else 0
  let offset (i : Nat) : Nat := ((fields.take i).map fun f => f.length + width).foldl (· + ·) 0
  let blanksAt (i : Nat) : Nat := ((line.drop i).takeWhile isBlank).length
  let first := offset (k.field - 1)
  let first := if k.dropsBlanksAtStart then first + blanksAt first else first
  let first := min (first + k.char - 1) line.length
  let last := match k.lastField with
    | none => line.length
    | some f =>
      if k.lastChar = 0 then offset (f - 1) + (fields.getD (f - 1) []).length
      else
        let start := offset (f - 1)
        let start := if k.dropsBlanksAtEnd then start + blanksAt start else start
        start + k.lastChar
  (line.take (min last line.length)).drop first

/-! Comparisons -/

def compareOctets (a b : Octets) : Ordering :=
  if a < b then .lt else if b < a then .gt else .eq

/-- The number at the start of a text: its sign, its whole part and its fraction. -/
def numberAt (cs : Octets) : Bool × Octets × Octets :=
  let cs := cs.dropWhile fun c => c = ' ' || c = '\t'
  let (isNegative, cs) := match cs with
    | '-' :: cs => (true, cs)
    | cs => (false, cs)
  let whole := cs.takeWhile Char.isDigit
  let part := match cs.drop whole.length with
    | '.' :: rest => rest.takeWhile Char.isDigit
    | _ => []
  let whole := whole.dropWhile (· = '0')
  let part := (part.reverse.dropWhile (· = '0')).reverse
  (isNegative && (whole ≠ [] || part ≠ []), whole, part)

def compareNumbers (a b : Octets) : Ordering :=
  let (m, aw, ap) := numberAt a
  let (n, bw, bp) := numberAt b
  let size : Ordering := (compare aw.length bw.length).then
    ((compareOctets aw bw).then (compareOctets ap bp))
  match m, n with
  | false, false => size
  | true, true => size.swap
  | true, false => .lt
  | false, true => .gt

def unitRank (cs : Octets) : Nat :=
  let cs := cs.dropWhile fun c => c = ' ' || c = '-'
  let rest := cs.dropWhile fun c => c.isDigit || c = '.'
  match rest with
  | c :: _ => match "KMGTPEZY".toList.idxOf? c.toUpper with
    | some i => i + 1
    | none => 0
  | [] => 0

def compareSizes (a b : Octets) : Ordering :=
  let sign (cs : Octets) : Int :=
    let (isNegative, whole, part) := numberAt cs
    if isNegative then -1 else if whole = [] ∧ part = [] then 0 else 1
  let (s, t) := (sign a, sign b)
  if s ≠ t then compare s t
  else
    let ranks := compare (unitRank a) (unitRank b)
    (if s < 0 then ranks.swap else ranks).then (compareNumbers a b)

def months : List Octets :=
  ["JAN", "FEB", "MAR", "APR", "MAY", "JUN", "JUL", "AUG", "SEP", "OCT", "NOV", "DEC"].map octets

def monthOf (cs : Octets) : Nat :=
  let cs := cs.dropWhile fun c => c = ' ' || c = '\t'
  match months.idxOf? ((cs.take 3).map Char.toUpper) with
  | some i => i + 1
  | none => 0

/-- Compares real numbers; what is none comes first. -/
def compareReals (a b : Octets) : Ordering :=
  let (x, y) := (Real.start extended a, Real.start extended b)
  match x.isFound, y.isFound with
  | false, false => .eq
  | false, true => .lt
  | true, false => .gt
  | true, true =>
    let scaled (r : Real) : Int := match r with
      | .finite isNegative m e =>
        let (n, d) := Real.fraction (m * Nat.pow 10 30) e
        let size : Int := (n / d : Nat)
        if isNegative then -size else size
      | .infinite true | .undefined _ => -(Nat.pow 10 5000 : Nat)
      | .infinite false => (Nat.pow 10 5000 : Nat)
    compare (scaled x.value) (scaled y.value)

/-- The weight of a character in a version: ends and tildes first, letters before others. -/
def versionWeight : Option Char → Int
  | none => 0
  | some c =>
    if c = '~' then -1 else if c.isDigit then 0 else if c.isAlpha then c.toNat
    else c.toNat + 256

/-- Compares versions: texts and numbers in turn. -/
def compareVersions : Nat → Octets → Octets → Ordering
  | 0, _, _ => .eq
  | fuel + 1, a, b =>
    let isText := fun c : Char => !c.isDigit
    let (s, t) := (a.takeWhile isText, b.takeWhile isText)
    let texts := compareTexts (s.length + t.length + 1) s t
    if texts ≠ .eq then texts
    else
      let (a, b) := (a.drop s.length, b.drop t.length)
      let (m, n) := (a.takeWhile Char.isDigit, b.takeWhile Char.isDigit)
      let numbers := compare (naturalOf m) (naturalOf n)
      if numbers ≠ .eq then numbers
      else if a = [] ∧ b = [] then .eq
      else compareVersions fuel (a.drop m.length) (b.drop n.length)
where
  compareTexts : Nat → Octets → Octets → Ordering
    | 0, _, _ => .eq
    | fuel + 1, s, t =>
      if s = [] ∧ t = [] then .eq
      else (compare (versionWeight s.head?) (versionWeight t.head?)).then
        (compareTexts fuel s.tail t.tail)

def KeyRules.compare (r : KeyRules) (a b : Octets) : Ordering :=
  let shown (cs : Octets) : Octets :=
    let cs := if r.isDictionary then cs.filter fun c => c.isAlphanum || c = ' ' || c = '\t' else cs
    let cs := if r.skipsHidden then cs.filter isPrintable else cs
    if r.foldsCase then cs.map Char.toUpper else cs
  let order :=
    if r.isNumeric then compareNumbers a b
    else if r.isGeneral then compareReals a b
    else if r.isHuman then compareSizes a b
    else if r.isMonth then Ord.compare (monthOf a) (monthOf b)
    else if r.isVersion then compareVersions (a.length + b.length + 1) a b
    else compareOctets (shown a) (shown b)
  if r.isReversed then order.swap else order

/-! Sorting -/

structure SortRules where
  keys : List Key
  separator : Option Char
  isReversed : Bool
  isStable : Bool

def SortRules.byKeys (s : SortRules) (a b : Octets) : Ordering :=
  s.keys.foldl (fun order k =>
    order.then (k.rules.compare (k.part s.separator a) (k.part s.separator b))) .eq

def SortRules.compare (s : SortRules) (a b : Octets) : Ordering :=
  let order := s.byKeys a b
  if s.isStable then order
  else
    let whole := compareOctets a b
    order.then (if s.isReversed then whole.swap else whole)

def dropRepeats (same : Octets → Octets → Bool) : List Octets → List Octets
  | a :: b :: rest =>
    if same a b then dropRepeats same (a :: rest) else a :: dropRepeats same (b :: rest)
  | lines => lines
  termination_by lines => lines.length

def keyLetters : List Char := ['n', 'g', 'h', 'V', 'M', 'f', 'r', 'b', 'd', 'i']

def sort : Work Unit := do
  let o ← Options.read "bcCdfghik:mMno:rRsS:t:T:uVz" [.flag 'n' "numeric-sort",
    .flag 'r' "reverse", .flag 'u' "unique", .valued 'k' "key",
    .valued 't' "field-separator", .valued 'o' "output", .flag 's' "stable",
    .flag 'f' "ignore-case", .flag 'b' "ignore-leading-blanks", .flag 'c' "check",
    .flag 'V' "version-sort", .flag 'h' "human-numeric-sort",
    .flag 'g' "general-numeric-sort"] (← read).args false 2
  let rules := (o.found.map (·.1)).foldl (fun (r : KeyRules) c => (r.addLetter c).getD r) {}
  let mut keys : List Key := []
  for (letter, value) in o.found do
    if letter = 'k' then
      match key? value with
      | some k =>
        let plain := !(keyLetters.any fun c => (value.contains c))
        let k := if plain then
            { k with
              rules := rules
              dropsBlanksAtStart := rules.dropsBlanks
              dropsBlanksAtEnd := rules.dropsBlanks }
          else k
        keys := keys ++ [k]
      | none =>
        Work.die (octets "invalid number at field start: invalid count at start of " ++
          inQuotes value) 2
  let separator ← match o.value? 't' with
    | none => pure none
    | some ['\\', '0'] => pure (some '\x00')
    | some [c] => pure (some c)
    | some [] => Work.die (octets "empty tab") 2
    | some t => Work.die (octets "multi-character tab " ++ inQuotes t) 2
  let whole : Key :=
    { field := 1, rules := rules, dropsBlanksAtStart := rules.dropsBlanks }
  let isUnique := o.has 'u'
  let s : SortRules :=
    ⟨if keys = [] then [whole] else keys, separator, rules.isReversed, o.has 's' || isUnique⟩
  let files := filesOf o.operands
  let mut lines : List Octets := []
  for file in files do
    match ← Work.text file with
    | .ok text => lines := lines ++ bareLines text
    | .error reason =>
      Work.die (octets (if reason = octets "Is a directory" then "read failed: "
        else "cannot read: ") ++ nameShown file ++ octets ": " ++ reason) 2
  if o.has 'c' ∨ o.has 'C' then
    let pairs := lines.zip lines.tail
    match pairs.zipIdx.find? fun p =>
        let order := s.compare p.1.1 p.1.2
        order = .gt || (isUnique && order = .eq) with
    | some ((_, line), i) =>
      if o.has 'c' then
        Work.putError ((← read).name ++ octets ": " ++ files.headD ['-'] ++ ':' :: digits (i + 2) ++
          octets ": disorder: " ++ line ++ ['\n'])
      modify fun b => { b with status := 1 }
    | none => return ()
  else
    let sorted := lines.mergeSort fun a b => s.compare a b != .gt
    let sorted := if isUnique then dropRepeats (fun a b => s.byKeys a b = .eq) sorted else sorted
    let out : Octets := sorted.flatMap (· ++ ['\n'])
    match o.value? 'o' with
    | none => Work.put out
    | some path =>
      let done ← Work.change (fun d => d.write path.toBytes out.toBytes) fun e =>
        octets "open failed: " ++ Work.because path e
      if !done then throw 2

/-! Equal lines -/

/-- Lines that follow one another and are equal, the first of them and how many there are. -/
def groupsOf (same : Octets → Octets → Bool) : List Octets → List (List Octets)
  | [] => []
  | a :: rest =>
    match groupsOf same rest with
    | (b :: more) :: groups =>
      if same a b then (a :: b :: more) :: groups else [a] :: (b :: more) :: groups
    | groups => [a] :: groups

def unique : Work Unit := do
  let args := (← read).args.map fun a => match a with
    | '-' :: c :: cs => if c.isDigit then octets "-f" ++ c :: cs else a
    | _ => a
  let o ← Options.read "cdDf:is:uw:z" [.flag 'c' "count", .flag 'd' "repeated",
    .flag 'u' "unique", .flag 'i' "ignore-case", .valued 'f' "skip-fields",
    .valued 's' "skip-chars", .valued 'w' "check-chars"] args
  let number (letter : Char) : Option Nat := (o.value? letter).map naturalOf
  let isBlank := fun c : Char => c = ' ' || c = '\t'
  let skipField (cs : Octets) : Octets := (cs.dropWhile isBlank).dropWhile fun c => !isBlank c
  let keyOf (line : Octets) : Octets :=
    let cs := Nat.repeat skipField ((number 'f').getD 0) line
    let cs := cs.drop ((number 's').getD 0)
    let cs := match number 'w' with
      | some n => cs.take n
      | none => cs
    if o.has 'i' then cs.map Char.toLower else cs
  if let extra :: _ := o.operands.drop 2 then Work.misused (octets "extra operand " ++ inQuotes extra)
  let file := o.operands.headD ['-']
  match ← Work.text file with
  | .error reason =>
    Work.die (if reason = octets "Is a directory" then octets "error reading " ++ inShellQuotes file
      else nameShown file ++ octets ": " ++ reason)
  | .ok text =>
    let groups := groupsOf (fun a b => keyOf a = keyOf b) (bareLines text)
    let out : Octets := groups.flatMap fun group =>
      let line := group.headD [] ++ ['\n']
      let count := if o.has 'c' then atRight 7 (digits group.length) ++ [' '] else []
      if o.has 'D' then if group.length > 1 then group.flatMap (· ++ ['\n']) else []
      else if (o.has 'd' ∧ group.length = 1) ∨ (o.has 'u' ∧ group.length > 1) then []
      else count ++ line
    match o.operands with
    | [_, path] =>
      let _ ← Work.change (fun d => d.write path.toBytes out.toBytes) (Work.because path)
    | _ => Work.put out

/-- Merges sorted lines: those of the first text only, of the second only, and of both. -/
def merged : Nat → List Octets → List Octets → List (Nat × Octets)
  | 0, _, _ => []
  | _ + 1, [], bs => bs.map fun b => (2, b)
  | _ + 1, as, [] => as.map fun a => (1, a)
  | fuel + 1, a :: as, b :: bs =>
    if a < b then (1, a) :: merged fuel as (b :: bs)
    else if b < a then (2, b) :: merged fuel (a :: as) bs
    else (3, a) :: merged fuel as bs

def common : Work Unit := do
  let o ← Options.read "123z" [.valued 'O' "output-delimiter"] (← read).args
  let texts (file : Octets) : Work Octets := do
    match ← Work.text file with
    | .ok text => return text
    | .error reason => Work.die (nameShown file ++ octets ": " ++ reason)
  match o.operands with
  | [] => Work.misused (octets "missing operand")
  | [first] => Work.misused (octets "missing operand after " ++ inQuotes first)
  | [first, second] =>
    let a := bareLines (← texts first)
    let b := bareLines (← texts second)
    let mark := (o.value? 'O').getD ['\t']
    for (column, line) in merged (a.length + b.length + 1) a b do
      let isHidden := o.has (Char.ofNat (48 + column))
      if !isHidden then
        let before := ((List.range column).filter fun i => i > 0 && !o.has (Char.ofNat (48 + i))).length
        Work.putLine ((List.replicate before mark).flatten ++ line)
  | _ :: _ :: extra :: _ => Work.misused (octets "extra operand " ++ inQuotes extra)

end Depot.Host.Tool
