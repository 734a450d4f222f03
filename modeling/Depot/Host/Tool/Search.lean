import Depot.Host.Glyph
import Depot.Host.Regex
import Depot.Host.Tool.Files
import Depot.Host.Tool.Lines

/-! Lines that match patterns. -/

namespace Depot.Host.Tool

open Files

structure Wanted where
  patterns : List Regex
  style : Regex.Style
  /-- A match is no part of a longer word. -/
  isWord : Bool
  /-- A match is a whole line. -/
  isLine : Bool
  isInverted : Bool

namespace Wanted

def matchAt? (w : Wanted) (cs : Array Char) (i : Nat) : Option Nat :=
  let isEnd (j : Nat) : Bool :=
    (!w.isLine || (i = 0 && j = cs.size)) &&
    (!w.isWord || (!(i > 0 && (cs[i - 1]?).any Regex.isWord) && !(cs[j]?).any Regex.isWord))
  let ends := w.patterns.filterMap fun r =>
    (Regex.matchAt w.style cs (100 * (cs.size + 100)) r i [] fun j gs =>
      if isEnd j then some (j, gs) else none).map (·.1)
  ends.max?

/-- The first match from a place on: its start and its end. -/
def find? (w : Wanted) (cs : Array Char) : Nat → Nat → Option (Nat × Nat)
  | 0, _ => none
  | more + 1, i =>
    match w.matchAt? cs i with
    | some j => some (i, j)
    | none => find? w cs more (i + 1)

def has (w : Wanted) (line : Octets) : Bool :=
  let cs := line.toArray
  (w.find? cs (cs.size + 1) 0).isSome != w.isInverted

/-- The matches in a line that are not empty, with the places of their starts. -/
def matchesIn (w : Wanted) (cs : Array Char) : Nat → Nat → List (Nat × Octets)
  | 0, _ => []
  | more + 1, i =>
    match w.find? cs (cs.size + 1 - i) i with
    | none => []
    | some (a, b) =>
      if a < b then (a, (cs.extract a b).toList) :: matchesIn w cs more b
      else if a < cs.size then matchesIn w cs more (a + 1)
      else []

end Wanted

structure Shown where
  o : Options
  hasNames : Bool
  /-- The lines shown before and after each. -/
  before : Nat
  after : Nat
  most : Option Nat

/-- The places that are marked, or no more than so many after one that is. -/
def reach (most : Nat) : Nat → List Bool → List Bool
  | _, [] => []
  | left, b :: bs => (b || left > 0) :: reach most (if b then most else left - 1) bs

def firstMarks : Nat → List Bool → List Bool
  | _, [] => []
  | 0, _ :: bs => false :: firstMarks 0 bs
  | n + 1, b :: bs => b :: firstMarks (if b then n else n + 1) bs

structure SearchedLine where
  number : Nat
  /-- The place in the text where it begins. -/
  place : Nat
  isFound : Bool
  text : Octets

def Shown.pick (s : Shown) (w : Wanted) (lines : List Octets) : List SearchedLine :=
  let marks := lines.map w.has
  let marks := match s.most with
    | some most => firstMarks most marks
    | none => marks
  let shown := List.zipWith or (reach s.after 0 marks) (reach s.before 0 marks.reverse).reverse
  gather 1 0 (lines.zip (marks.zip shown))
where
  gather : Nat → Nat → List (Octets × Bool × Bool) → List SearchedLine
    | _, _, [] => []
    | number, place, (text, isFound, isShown) :: rest =>
      let more := gather (number + 1) (place + text.length + 1) rest
      if isShown then ⟨number, place, isFound, text⟩ :: more else more

def sourceName (file : Octets) : Octets :=
  if file = ['-'] then octets "(standard input)" else file

/-- Shows lines of a file. A gap between them is marked if lines around them are shown, too. -/
def Shown.lines (s : Shown) (w : Wanted) (file : Octets) (picked : List SearchedLine)
    (isLater : Bool) : Octets :=
  let start (l : SearchedLine) (place : Nat) : Octets :=
    let mark := if l.isFound then ':' else '-'
    (if s.hasNames then sourceName file ++ [mark] else []) ++
    (if s.o.has 'n' then digits l.number ++ [mark] else []) ++
    (if s.o.has 'b' then digits place ++ [mark] else [])
  let ending := if s.o.has 'z' then '\x00' else '\n'
  let hasGaps := s.before + s.after > 0
  let (out, _) := picked.foldl (fun (out, previous) l =>
    let isGap : Bool := match previous with
      | some m => l.number ≠ m + 1
      | none => isLater
    let gap := if hasGaps ∧ isGap then octets "--\n" else []
    let body :=
      if s.o.has 'o' then
        if l.isFound ∧ !w.isInverted then
          (w.matchesIn l.text.toArray (l.text.length + 1) 0).flatMap fun m =>
            start l (l.place + m.1) ++ m.2 ++ [ending]
        else []
      else start l l.place ++ l.text ++ [ending]
    ((gap ++ body) :: out, some l.number)) (([] : List Octets), none)
  out.reverse.flatten

def filesBelow (d : Disk) (dir : Octets) : List Octets :=
  match d.stat dir.toBytes with
  | .ok node => (node.beneath.filter fun e => match e.2 with
      | .file .. => true
      | _ => false).map fun e => below dir (joinWith ['/'] (e.1.map Octets.ofBytes))
  | .error _ => []

def patternsOf (o : Options) (isExtended isFixed : Bool) (text : Octets) : Work (List Regex) := do
  let style : Regex.Style := ⟨isExtended, o.has 'i' || o.has 'y', true⟩
  (splitAtSep '\n' text).mapM fun pattern =>
    if isFixed then
      let letter (c : Char) : Regex :=
        if style.foldsCase ∧ c.isAlpha then
          .bracket ⟨false, [(c.toLower, c.toLower), (c.toUpper, c.toUpper)]⟩
        else .char c
      pure (Regex.sequence (pattern.map letter))
    else match Regex.parse style pattern with
      | .ok (r, _) => pure r
      | .error reason => Work.die (octets reason) 2

def search (isExtended isFixed : Bool) : Work Unit := do
  let call ← read
  modify fun b => { b with
    usage := octets "Usage: " ++ call.name ++ octets " [OPTION]... PATTERNS [FILE]...\n" }
  let o ← Options.read "0123456789A:B:C:EFGHILTabce:f:hilm:noqrRsvwxyzUZ" [.valued '+' "include",
    .valued 'e' "regexp",
    .valued 'f' "file", .flag 'i' "ignore-case", .flag 'v' "invert-match",
    .flag 'w' "word-regexp", .flag 'x' "line-regexp", .flag 'c' "count",
    .flag 'l' "files-with-matches", .flag 'L' "files-without-match",
    .valued 'm' "max-count", .flag 'o' "only-matching", .flag 'q' "quiet",
    .flag 'q' "silent", .flag 's' "no-messages", .flag 'H' "with-filename",
    .flag 'h' "no-filename", .flag 'n' "line-number", .flag 'r' "recursive",
    .flag 'E' "extended-regexp", .flag 'F' "fixed-strings", .flag 'G' "basic-regexp",
    .valued 'A' "after-context", .valued 'B' "before-context", .valued 'C' "context",
    .flag 'a' "text", .flag 'b' "byte-offset", .loose '=' "color", .loose '=' "colour"] call.args false 2
  for (c, value) in o.found do
    if c ∈ ['A', 'B', 'C'] ∧ !(value ≠ [] ∧ value.all Char.isDigit) then
      Work.die (value ++ octets ": invalid context length argument") 2
    if c = 'm' ∧ !(value ≠ [] ∧ value.all Char.isDigit) then Work.die (octets "invalid max count") 2
  let kind := (o.last? ['E', 'F', 'G']).getD (if isExtended then 'E' else if isFixed then 'F' else 'G')
  let compile := patternsOf o (kind = 'E') (kind = 'F')
  let given ← o.found.filterMapM fun (c, value) =>
    if c = 'e' then return some value
    else if c = 'f' then do
      match ← Work.text value with
      | .ok text => return some (joinWith ['\n'] (bareLines text))
      | .error reason => Work.die (value ++ octets ": " ++ reason) 2
    else return none
  let isGiven := o.found.any fun f => f.1 = 'e' || f.1 = 'f'
  let (texts, files) ← if isGiven then pure (given, o.operands)
    else match o.operands with
      | [] => Work.help 2
      | pattern :: files => pure ([pattern], files)
  let patterns ← texts.mapM compile
  let w : Wanted := ⟨patterns.flatten, ⟨kind = 'E', o.has 'i' || o.has 'y', true⟩, o.has 'w',
    o.has 'x', o.has 'v'⟩
  let isDeep := o.has 'r' || o.has 'R'
  let d := (← get).disk
  let files := if files ≠ [] then files else if isDeep then [['.']] else [['-']]
  let wildcards := (o.found.filter fun f => f.1 = '+').map (·.2)
  let isIncluded (file : Octets) : Bool :=
    wildcards = [] || wildcards.any fun w => Glob.doesMatch false (Glyphs.ofText false w).glob (baseName file [])
  let expanded := files.flatMap fun file =>
    if isDeep ∧ d.isDirectory file.toBytes then (filesBelow d file).filter isIncluded else [file]
  let plain (file : Octets) : Octets :=
    if isDeep ∧ o.operands.length ≤ 1 ∧ files = [['.']] ∧ !o.operands.contains ['.'] then file.drop 2
    else file
  let context (c : Char) : Nat :=
    let ds := (o.found.filter fun f => f.1.isDigit).map (·.1)
    ((o.value? c <|> o.value? 'C').map naturalOf).getD (naturalOf ds)
  let hasNames := !o.has 'h' && (o.has 'H' || isDeep || files.length > 1)
  let s : Shown := ⟨o, hasNames, context 'B', context 'A', (o.value? 'm').map naturalOf⟩
  let mut isFound := false
  let mut hasShown := false
  for file in expanded do
    match ← Work.text file with
    | .error reason =>
      if o.has 's' then modify fun b => { b with status := 2 }
      else Work.warn (file ++ octets ": " ++ reason) 2
    | .ok text =>
      let lines := if o.has 'z' then
          let parts := splitAtSep '\x00' text
          if parts.getLastD [] = [] then parts.dropLast else parts
        else bareLines text
      let picked := s.pick w lines
      let count := (picked.filter (·.isFound)).length
      if count > 0 then isFound := true
      if count > 0 ∧ o.has 'q' then throw 0
      if o.has 'q' then pure ()
      else if o.has 'l' then
        if count > 0 then Work.putLine (sourceName (plain file))
      else if o.has 'L' then
        if count = 0 then Work.putLine (sourceName (plain file))
      else if o.has 'c' then
        Work.putLine ((if hasNames then sourceName (plain file) ++ [':'] else []) ++ digits count)
      else if count > 0 then
        if text.contains '\x00' ∧ !o.has 'a' ∧ !o.has 'z' then
          Work.putError (call.name ++ octets ": " ++ sourceName (plain file) ++
            octets ": binary file matches\n")
        else
          Work.put (s.lines w (plain file) picked hasShown)
          hasShown := true
  let failed := (← get).status = 2
  modify fun b => { b with status := if failed then 2 else if isFound then 0 else 1 }

end Depot.Host.Tool
