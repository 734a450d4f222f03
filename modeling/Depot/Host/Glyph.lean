import Depot.Text.Glob

/-!
Expanded words. Each character of one remembers whether it was quoted, for only those that were not
can end a field or stand for others.
-/

namespace Depot.Host

inductive Glyph where
  | char (c : Char) (isQuoted : Bool)
  /-- Quotes stood here. -/
  | mark
  /-- One argument ends and another begins. -/
  | gap
  deriving DecidableEq

abbrev Glyphs := List Glyph

def Glyphs.ofText (isQuoted : Bool) (cs : Octets) : Glyphs := cs.map fun c => .char c isQuoted

/-- The text of a word, quotes left out. -/
def Glyphs.text (gs : Glyphs) : Octets :=
  gs.filterMap fun
    | .char c _ => some c
    | .mark => none
    | .gap => some '\x00'

inductive Piece where
  /-- Is not split. -/
  | fixed (gs : Glyphs)
  /-- Is split at the separators. -/
  | loose (gs : Glyphs)
  /-- Is split between arguments only. -/
  | args (gs : Glyphs)

def Piece.glyphs : Piece → Glyphs
  | .fixed gs | .loose gs | .args gs => gs

def textOf (ps : List Piece) : Octets := Glyphs.text (ps.flatMap Piece.glyphs)

/-! Fields -/

def isBlankSeparator (c : Char) : Bool := c = ' ' || c = '\t' || c = '\n'

structure Separators where
  chars : Octets
  isArgs : Bool := false

namespace Separators

/-- The glyph separates fields; `some true` says that it is blank. -/
def kind? (s : Separators) : Glyph → Option Bool
  | .gap => some true
  | .char c false =>
    if !s.isArgs && s.chars.contains c then some (isBlankSeparator c) else none
  | _ => none

/-- Passes over the separators that belong to one that was met. -/
def skip (s : Separators) (isBlank : Bool) : Glyphs → Glyphs
  | [] => []
  | g :: gs =>
    match s.kind? g with
    | none => g :: gs
    | some true => skip s isBlank gs
    | some false => if isBlank then skip s false gs else g :: gs

theorem skip_length (s : Separators) (isBlank : Bool) (gs : Glyphs) :
    (s.skip isBlank gs).length ≤ gs.length := by
  induction gs generalizing isBlank with
  | nil => simp [skip]
  | cons g gs ih =>
    rw [skip]
    split
    · simp
    · have := ih isBlank
      simp only [List.length_cons]
      omega
    · split
      · have := ih false
        simp only [List.length_cons]
        omega
      · simp

/-- Splits a piece: the fields that end in it, and the field that is open at its end. -/
def split (s : Separators) (isAfterArgs : Bool) (open_ : Glyphs) : Glyphs → List Glyphs × Glyphs
  | [] => ([], open_)
  | g :: gs =>
    match s.kind? g with
    | none => split s isAfterArgs (open_ ++ [g]) gs
    | some isBlank =>
      if open_ = [] ∧ isBlank ∧ !isAfterArgs ∧ !s.isArgs then split s isAfterArgs [] gs
      else if s.isArgs then
        let (fields, last) := split s isAfterArgs [] gs
        (open_ :: fields, last)
      else
        let (fields, last) := split s isAfterArgs [] (s.skip (isBlank && !isAfterArgs) gs)
        (open_ :: fields, last)
  termination_by gs => gs.length
  decreasing_by
    all_goals simp only [List.length_cons]
    · omega
    · omega
    · omega
    · have := s.skip_length (isBlank && !isAfterArgs) gs
      omega

end Separators

def fieldsOf (separators : Octets) : Bool → Glyphs → List Piece → List Glyphs
  | isAfterArgs, last, [] => if last = [] ∧ !isAfterArgs then [] else [last]
  | isAfterArgs, last, .fixed gs :: ps => fieldsOf separators isAfterArgs (last ++ gs) ps
  | isAfterArgs, last, .loose gs :: ps =>
    let (fields, last) := Separators.split ⟨separators, false⟩ isAfterArgs last gs
    fields ++ fieldsOf separators false last ps
  | isAfterArgs, last, .args gs :: ps =>
    let (fields, last) := Separators.split ⟨separators, true⟩ isAfterArgs last gs
    fields ++ fieldsOf separators true last ps

/-- What of the last field of a line is kept: blank separators at its end are left out, and another
separator too if it ends the only field there is. -/
def lastField (s : Separators) (gs : Glyphs) : Glyphs :=
  let isBlank (g : Glyph) := s.kind? g = some true
  let first := gs.takeWhile fun g => (s.kind? g).isNone
  let rest := gs.drop first.length
  let afterBlanks := rest.dropWhile isBlank
  let afterSeparator : Glyphs := match afterBlanks with
    | g :: gs => if s.kind? g = some false then gs.dropWhile isBlank else g :: gs
    | [] => []
  if afterSeparator = [] then first else (gs.reverse.dropWhile isBlank).reverse

/-- The fields of a line that is read into `count` variables. -/
def lineFields (s : Separators) : Nat → Glyphs → List Glyphs
  | 0, _ => []
  | count + 1, gs =>
    let gs := gs.dropWhile fun g => s.kind? g = some true
    if gs = [] then []
    else if count = 0 then [lastField s gs]
    else
      let first := gs.takeWhile fun g => (s.kind? g).isNone
      match gs.drop first.length with
      | [] => [first]
      | g :: rest => first :: lineFields s count (s.skip (s.kind? g = some true) rest)

/-! Patterns -/

/-- A backslash that was not quoted quotes the character after it. -/
def settleSlashes : Glyphs → Glyphs
  | [] => []
  | .char '\\' false :: .char c _ :: gs => .char c true :: settleSlashes gs
  | .mark :: gs => settleSlashes gs
  | g :: gs => g :: settleSlashes gs

def namedClass? (gs : Glyphs) : Option (List (Char × Char) × Glyphs) :=
  match gs with
  | .char ':' false :: gs =>
    let name := gs.takeWhile fun g => match g with
      | .char c false => c.isAlpha
      | _ => false
    match gs.drop name.length with
    | .char ':' false :: .char ']' false :: rest =>
      (Glob.classRanges? (Glyphs.text name)).map fun ranges => (ranges, rest)
    | _ => none
  | _ => none

/-- The ranges of a bracket from its next item on, and what follows the bracket. The first item may
be a closing bracket. -/
def bracketItems : Nat → Bool → Glyphs → Option (List (Char × Char) × Glyphs)
  | 0, _, _ => none
  | _ + 1, _, [] => none
  | fuel + 1, isFirst, .char c q :: gs =>
    if c = ']' ∧ !q ∧ !isFirst then some ([], gs)
    else
      let with_ (ranges : List (Char × Char)) (rest : Glyphs) :=
        (bracketItems fuel false rest).map fun r => (ranges ++ r.1, r.2)
      match if c = '[' ∧ !q then namedClass? gs else none with
      | some (ranges, rest) => with_ ranges rest
      | none =>
        match gs with
        | .char '-' false :: .char d q :: rest =>
          if d = ']' ∧ !q then with_ [(c, c)] gs else with_ [(c, d)] rest
        | _ => with_ [(c, c)] gs
  | fuel + 1, _, _ :: gs => bracketItems fuel false gs

def globOf : Nat → Glyphs → Glob
  | 0, _ => []
  | _ + 1, [] => []
  | fuel + 1, .char c q :: gs =>
    match c, q with
    | '?', false => .one :: globOf fuel gs
    | '*', false => .many :: globOf fuel gs
    | '[', false =>
      let (isNegated, items) := match gs with
        | .char '!' false :: items => (true, items)
        | _ => (false, gs)
      match bracketItems (items.length + 1) true items with
      | some (ranges, rest) => .bracket ⟨isNegated, ranges⟩ :: globOf fuel rest
      | none => .char '[' :: globOf fuel gs
    | c, _ => .char c :: globOf fuel gs
  | fuel + 1, _ :: gs => globOf fuel gs

def Glyphs.glob (gs : Glyphs) : Glob :=
  let gs := settleSlashes gs
  globOf (gs.length + 1) gs

/-- A bracket that comes next is closed before the next slash. -/
def closesBracket : Bool → Glyphs → Bool
  | _, [] => false
  | isFirst, .char c q :: gs =>
    if c = '/' then false
    else if c = ']' ∧ !q ∧ !isFirst then true
    else closesBracket false gs
  | isFirst, _ :: gs => closesBracket isFirst gs

def hasWildcard : Glyphs → Bool
  | [] => false
  | .char '*' false :: _ | .char '?' false :: _ => true
  | .char '[' false :: gs =>
    let items := match gs with
      | .char '!' false :: items => items
      | _ => gs
    closesBracket true items || hasWildcard gs
  | _ :: gs => hasWildcard gs

/-- What is left of a text without a start, or an end, that matches a pattern. -/
def trimmed (isEnd isLongest : Bool) (g : Glob) (cs : Glyphs) : Glyphs :=
  let parts := (List.range (cs.length + 1)).map fun i => cs.splitAt i
  if isEnd then
    let parts := if isLongest then parts else parts.reverse
    match parts.find? fun p => g.doesMatch false (Glyphs.text p.2) with
    | some (kept, _) => kept
    | none => cs
  else
    let parts := if isLongest then parts.reverse else parts
    match parts.find? fun p => g.doesMatch false (Glyphs.text p.1) with
    | some (_, kept) => kept
    | none => cs

end Depot.Host
