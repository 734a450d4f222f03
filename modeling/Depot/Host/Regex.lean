import Depot.Host.Number
import Depot.Text.Glob

/-!
Regular expressions, basic and extended. A match is searched by trying the parts in order, the longest
run of a repeated part first; of the branches of a choice the one that leads furthest is taken.
-/

namespace Depot.Host

inductive Regex where
  | empty
  | char (c : Char)
  | any
  | bracket (b : Bracket)
  | start
  | finish
  /-- Ends of words: their start, their end, either, neither. -/
  | wordStart | wordEnd | wordEdge | wordInside
  | group (number : Nat) (r : Regex)
  /-- What a group has matched. -/
  | again (number : Nat)
  | both (first second : Regex)
  | either (first second : Regex)
  | many (least : Nat) (most : Option Nat) (r : Regex)

namespace Regex

structure Style where
  isExtended : Bool := false
  foldsCase : Bool := false
  /-- Repetitions of nothing are passed over, and braces that hold no numbers stand for themselves. -/
  isLoose : Bool := false

structure Rest where
  chars : Octets
  groups : Nat := 0

abbrev Parse := StateT Rest (Except String)

def peek : Parse (Option Char) := do return (← get).chars.head?

def skip (n : Nat := 1) : Parse Unit := modify fun s => { s with chars := s.chars.drop n }

def startsWith (text : String) : Parse Bool := do return text.toList.isPrefixOf (← get).chars

/-- The class, or the single character, whose name comes next between marks. -/
def named (mark : Char) : Parse Octets := do
  let name := (← get).chars.takeWhile (· ≠ mark)
  skip (name.length + 2)
  return name

def ranges : Nat → Bool → Parse (List (Char × Char))
  | 0, _ => throw "Unmatched [, [^, [:, [., or [="
  | fuel + 1, isFirst => do
    match (← get).chars with
    | [] => throw "Unmatched [, [^, [:, [., or [="
    | ']' :: _ =>
      if isFirst then one fuel
      else
        skip
        return []
    | '[' :: ':' :: _ =>
      skip 2
      let name ← named ':'
      match Glob.classRanges? name with
      | some rs => return rs ++ (← ranges fuel false)
      | none => throw "Invalid character class name"
    | '[' :: '.' :: _ | '[' :: '=' :: _ =>
      skip
      let mark := (← peek).getD '.'
      skip
      let name ← named mark
      let c := name.headD mark
      return (c, c) :: (← ranges fuel false)
    | _ => one fuel
where
  one (fuel : Nat) : Parse (List (Char × Char)) := do
    match (← get).chars with
    | a :: '-' :: b :: _ =>
      if b = ']' then
        skip
        return (a, a) :: (← ranges fuel false)
      else
        skip 3
        if b < a then throw "Invalid range end"
        return (a, b) :: (← ranges fuel false)
    | a :: _ =>
      skip
      return (a, a) :: (← ranges fuel false)
    | [] => throw "Unmatched [, [^, [:, [., or [="

def bracketOf (style : Style) : Parse Regex := do
  let isNegated := (← peek) = some '^'
  if isNegated then skip
  let chars := (← get).chars
  if chars = [] then throw "Invalid regular expression"
  let inner := chars.takeWhile (· ≠ ']')
  if style.isLoose ∧ inner.length > 1 ∧ inner.length < chars.length ∧ inner.head? = some ':' ∧
      inner.getLast? = some ':' then
    throw "character class syntax is [[:space:]], not [:space:]"
  let rs ← ranges ((← get).chars.length + 1) true
  let other (r : Char × Char) : List (Char × Char) :=
    if !style.foldsCase then [r]
    else ((List.range (r.2.toNat + 1 - r.1.toNat)).map fun i => Char.ofNat (r.1.toNat + i)).flatMap
      fun c => [(c.toLower, c.toLower), (c.toUpper, c.toUpper)]
  return .bracket ⟨isNegated, rs.flatMap other⟩

def bounds (style : Style) : Parse (Nat × Option Nat) := do
  let number : Parse (Option Nat) := do
    let ds := (← get).chars.takeWhile Char.isDigit
    skip ds.length
    return if ds = [] then none else some (valueOf 10 ds)
  let least ← number
  let most ← if (← peek) = some ',' then do
      skip
      number
    else pure least
  let closing := if style.isExtended then "\x7d" else "\\\x7d"
  if (← peek).isNone then throw "Unmatched \\\x7b"
  if !(← startsWith closing) then throw "Invalid content of \\\x7b\\\x7d"
  skip closing.length
  if most.any fun m => m < least.getD 0 then throw "Invalid content of \\\x7b\\\x7d"
  return (least.getD 0, most)

def sequence : List Regex → Regex
  | [] => .empty
  | [r] => r
  | r :: rs => .both r (sequence rs)

mutual

def branches (style : Style) : Nat → Bool → Parse Regex
  | 0, _ => throw "Regular expression too big"
  | fuel + 1, isInner => do
    let first ← pieces style fuel isInner true
    let first := sequence first
    let bar := if style.isExtended then "|" else "\\|"
    if ← startsWith bar then
      skip bar.length
      return .either first (← branches style fuel isInner)
    else return first

def pieces (style : Style) : Nat → Bool → Bool → Parse (List Regex)
  | 0, _, _ => throw "Regular expression too big"
  | fuel + 1, isInner, isFirst => do
    let chars := (← get).chars
    let isEnd := match style.isExtended, chars with
      | _, [] => true
      | true, '|' :: _ => true
      | true, ')' :: _ => isInner
      | false, '\\' :: '|' :: _ => true
      | false, '\\' :: ')' :: _ => true
      | _, _ => false
    if isEnd then return []
    else
      let r ← atom style fuel isFirst
      let r ← repeats style fuel isFirst r
      let rest ← pieces style fuel isInner (match r with
        | .start => !style.isExtended
        | _ => false)
      return r :: rest

def atom (style : Style) : Nat → Bool → Parse Regex
  | 0, _ => throw "Regular expression too big"
  | fuel + 1, isFirst => do
    let chars := (← get).chars
    skip
    let letter (c : Char) : Regex :=
      if style.foldsCase ∧ c.isAlpha then
        .bracket ⟨false, [(c.toLower, c.toLower), (c.toUpper, c.toUpper)]⟩
      else .char c
    let inGroup : Parse Regex := do
      modify fun s => { s with groups := s.groups + 1 }
      let number := (← get).groups
      let r ← branches style fuel true
      let closing := if style.isExtended then ")" else "\\)"
      if !(← startsWith closing) then throw "Unmatched ( or \\("
      skip closing.length
      return .group number r
    let misplaced : Parse Regex :=
      if style.isLoose then atom style fuel isFirst
      else throw "Invalid preceding regular expression"
    match style.isExtended, chars with
    | _, [] => return .empty
    | _, '.' :: _ => return .any
    | _, '[' :: _ => bracketOf style
    | true, '^' :: _ => return .start
    | true, '$' :: _ => return .finish
    | true, '(' :: _ => inGroup
    | true, '*' :: _ | true, '+' :: _ | true, '?' :: _ => misplaced
    | true, ')' :: _ => if style.isLoose then return .char ')' else throw "Unmatched ) or \\)"
    | true, '\x7b' :: c :: _ =>
      if c.isDigit ∧ !style.isLoose then misplaced else return .char '\x7b'
    | false, '^' :: _ => return if isFirst then .start else .char '^'
    | false, ['$'] => return .finish
    | false, '$' :: '\\' :: c :: _ => return if c = ')' ∨ c = '|' then .finish else .char '$'
    | _, '\\' :: c :: _ =>
      skip
      if !style.isExtended ∧ c = '(' then inGroup
      else if c.isDigit ∧ c ≠ '0' then
        let n := c.toNat - '0'.toNat
        if n > (← get).groups then throw "Invalid back reference" else return .again n
      else match c with
        | 'n' => return .char '\n'
        | 't' => return .char '\t'
        | 'w' => return .bracket ⟨false, wordRanges⟩
        | 'W' => return .bracket ⟨true, wordRanges⟩
        | 's' => return .bracket ⟨false, spaceRanges⟩
        | 'S' => return .bracket ⟨true, spaceRanges⟩
        | '<' => return .wordStart
        | '>' => return .wordEnd
        | 'b' => return .wordEdge
        | 'B' => return .wordInside
        | '\x60' => return .start
        | '\'' => return .finish
        | c => return letter c
    | _, ['\\'] => throw "Trailing backslash"
    | _, c :: _ => return letter c
where
  wordRanges : List (Char × Char) := [('0', '9'), ('A', 'Z'), ('_', '_'), ('a', 'z')]
  spaceRanges : List (Char × Char) := [('\t', '\x0d'), (' ', ' ')]

def repeats (style : Style) : Nat → Bool → Regex → Parse Regex
  | 0, _, r => return r
  | fuel + 1, isFirst, r => do
    let chars := (← get).chars
    let isLiteral := !style.isExtended && (match r with
      | .start => true
      | _ => false)
    match style.isExtended, chars with
    | _, '*' :: _ =>
      if isLiteral then return r
      else
        skip
        repeats style fuel isFirst (.many 0 none r)
    | true, '+' :: _ =>
      skip
      repeats style fuel isFirst (.many 1 none r)
    | true, '?' :: _ =>
      skip
      repeats style fuel isFirst (.many 0 (some 1) r)
    | true, '\x7b' :: rest =>
      if style.isLoose ∧ !isBounds rest then return r
      else
        skip
        let (least, most) ← bounds style
        repeats style fuel isFirst (.many least most r)
    | false, '\\' :: '+' :: _ =>
      skip 2
      repeats style fuel isFirst (.many 1 none r)
    | false, '\\' :: '?' :: _ =>
      skip 2
      repeats style fuel isFirst (.many 0 (some 1) r)
    | false, '\\' :: '\x7b' :: _ =>
      skip 2
      let (least, most) ← bounds style
      repeats style fuel isFirst (.many least most r)
    | _, _ => return r
where
  /-- The braces hold the bounds of a repetition. -/
  isBounds (cs : Octets) : Bool :=
    let inner := cs.takeWhile fun c => c.isDigit || c = ','
    inner ≠ [] && inner ≠ [','] && inner.count ',' ≤ 1 && (cs.drop inner.length).head? = some '\x7d'

end

/-- Reads an expression: the expression and the number of its groups. -/
def parse (style : Style) (cs : Octets) : Except String (Regex × Nat) := do
  let (r, s) ← (branches style (8 * (cs.length + 4)) false).run ⟨cs, 0⟩
  match s.chars with
  | [] => return (r, s.groups)
  | _ => throw "Unmatched ) or \\)"

/-! Matching -/

/-- What groups have matched: the places of their starts and ends. -/
abbrev Groups := List (Nat × Nat × Nat)

abbrev Match := Nat × Groups

def isWord (c : Char) : Bool := c.isAlphanum || c = '_'

/-- Whether words stand before and after a place. -/
def wordSides (cs : Array Char) (i : Nat) : Bool × Bool :=
  (i > 0 && (cs[i - 1]?).any isWord, (cs[i]?).any isWord)

/-- Matches an expression from a place on, and then what comes after it. -/
def matchAt (style : Style) (cs : Array Char) : Nat → Regex → Nat → Groups →
    (Nat → Groups → Option Match) → Option Match
  | 0, _, _, _, _ => none
  | fuel + 1, r, i, gs, next =>
    let check (b : Bool) : Option Match := if b then next i gs else none
    match r with
    | .empty => next i gs
    | .char c => if cs[i]? = some c then next (i + 1) gs else none
    | .any => if i < cs.size then next (i + 1) gs else none
    | .bracket b => if (cs[i]?).any b.has then next (i + 1) gs else none
    | .start => check (i = 0)
    | .finish => check (i = cs.size)
    | .wordStart => check (wordSides cs i = (false, true))
    | .wordEnd => check (wordSides cs i = (true, false))
    | .wordEdge => check ((wordSides cs i).1 != (wordSides cs i).2)
    | .wordInside => check ((wordSides cs i).1 == (wordSides cs i).2)
    | .group n r =>
      matchAt style cs fuel r i gs fun j gs => next j ((n, i, j) :: gs.filter fun g => g.1 ≠ n)
    | .again n =>
      match gs.find? fun g => g.1 = n with
      | none => none
      | some (_, a, b) =>
        let fold (c : Char) := if style.foldsCase then c.toLower else c
        let text := (cs.extract a b).map fold
        if (cs.extract i (i + (b - a))).map fold = text then next (i + (b - a)) gs else none
    | .both a b => matchAt style cs fuel a i gs fun j gs => matchAt style cs fuel b j gs next
    | .either a b =>
      match matchAt style cs fuel a i gs next, matchAt style cs fuel b i gs next with
      | some x, some y => if x.1 < y.1 then some y else some x
      | some x, none => some x
      | none, y => y
    | .many least most r =>
      let more : Option Match :=
        if most = some 0 then none
        else matchAt style cs fuel r i gs fun j gs =>
          if j = i ∧ least = 0 then none
          else matchAt style cs fuel (.many (least - 1) (most.map (· - 1)) r) j gs next
      match more with
      | some m => some m
      | none => if least = 0 then next i gs else none

/-- The first match from a place on: its start, its end and its groups. -/
def searchFrom (style : Style) (r : Regex) (cs : Array Char) : Nat → Nat → Option (Nat × Match)
  | 0, _ => none
  | more + 1, i =>
    match matchAt style cs (100 * (cs.size + 100)) r i [] fun j gs => some (j, gs) with
    | some m => some (i, m)
    | none => searchFrom style r cs more (i + 1)

def search (style : Style) (r : Regex) (cs : Array Char) (i : Nat) : Option (Nat × Match) :=
  searchFrom style r cs (cs.size + 1 - i) i

def groupText (cs : Array Char) (gs : Groups) (n : Nat) : Octets :=
  match gs.find? fun g => g.1 = n with
  | some (_, a, b) => (cs.extract a b).toList
  | none => []

end Regex

end Depot.Host
