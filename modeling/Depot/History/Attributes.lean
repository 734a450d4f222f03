import Depot.Pairs
import Depot.Text.Glob
import Depot.Text.Lines

/-!
Attributes that a tree gives to its files. A line of an attributes file has a pattern of paths and
settings for the files that match. The line nearest to a file wins: deeper files before those above,
later lines before earlier ones.
-/

namespace Depot.Attributes

/-- What a line says of an attribute. -/
inductive Setting where
  | set | unset
  /-- Nobody further away is asked. -/
  | unspecified
  | value (text : Octets)
  deriving DecidableEq, Repr

abbrev Settings := List (Octets × Setting)

/-- Which files a line is about. -/
inductive Scope where
  /-- Files whose own name matches. -/
  | name (pattern : Glob)
  /-- Files whose path from the attributes file matches. -/
  | path (pattern : Glob)
  | nothing
  deriving DecidableEq, Repr

inductive Line where
  | rule (scope : Scope) (settings : Settings)
  /-- A name for several settings. -/
  | collection (name : Octets) (settings : Settings)
  deriving DecidableEq, Repr

def isNameChar (c : Char) : Bool := c.isAlphanum || c = '-' || c = '.' || c = '_'

def isName (cs : Octets) : Bool :=
  cs ≠ [] && cs.head? ≠ some '-' && cs.all isNameChar

/-- One setting, written without blanks. -/
def setting? (word : Octets) : Option (Octets × Setting) :=
  let hasSign := word.head? = some '-' || word.head? = some '!'
  let body := if hasSign then word.tail else word
  let name := body.takeWhile (· ≠ '=')
  if isName name then
    some (name, match word.head?, body.drop name.length with
      | some '-', _ => .unset
      | some '!', _ => .unspecified
      | _, _ :: text => .value text
      | _, [] => .set)
  else none

/-- The settings of a line; nothing if one of them has no proper name. -/
def settings? (cs : Octets) : Option Settings :=
  ((splitAtSep ' ' (cs.map fun c => if isGap c then ' ' else c)).filter (· ≠ [])).mapM setting?

/-- Takes one character of a quoted text, given what follows a backslash. -/
def quotedEscape? : Octets → Option (Char × Octets)
  | 'a' :: cs => some ('\x07', cs)
  | 'b' :: cs => some ('\x08', cs)
  | 'f' :: cs => some ('\x0c', cs)
  | 'n' :: cs => some ('\n', cs)
  | 'r' :: cs => some ('\x0d', cs)
  | 't' :: cs => some ('\t', cs)
  | 'v' :: cs => some ('\x0b', cs)
  | '\\' :: cs => some ('\\', cs)
  | '"' :: cs => some ('"', cs)
  | x :: y :: z :: cs =>
    if '0' ≤ x ∧ x ≤ '3' ∧ '0' ≤ y ∧ y ≤ '7' ∧ '0' ≤ z ∧ z ≤ '7' then
      some (Char.ofNat ((x.toNat - 48) * 64 + (y.toNat - 48) * 8 + (z.toNat - 48)), cs)
    else none
  | _ => none

/-- A text up to the quote that ends it, and the rest. -/
def quoted? : Nat → Octets → Option (Octets × Octets)
  | 0, _ => none
  | _, [] => none
  | _, '"' :: rest => some ([], rest)
  | fuel + 1, '\\' :: rest => do
    let (c, rest) ← quotedEscape? rest
    let (cs, rest) ← quoted? fuel rest
    return (c :: cs, rest)
  | fuel + 1, c :: rest => (quoted? fuel rest).map fun r => (c :: r.1, r.2)

/-- Reads the members of a bracket, given the character before if a range may begin with it. -/
def bracketRanges : Nat → Option Char → Bool → Octets → Option (List (Char × Char) × Octets)
  | 0, _, _, _ => none
  | fuel + 1, before, isFirst, cs =>
    let add (c : Char) (before : Option Char) (rest : Octets) :=
      (bracketRanges fuel before false rest).map fun r => ((c, c) :: r.1, r.2)
    match cs with
    | [] => none
    | '\\' :: c :: rest => add c (some c) rest
    | ['\\'] => none
    | '[' :: ':' :: rest =>
      let inner := rest.takeWhile (· ≠ ']')
      match rest.drop inner.length with
      | [] => none
      | _ :: after =>
        if inner.getLast? = some ':' then do
          let ranges ← Glob.classRanges? inner.dropLast
          let (more, rest) ← bracketRanges fuel none false after
          return (ranges ++ more, rest)
        else add '[' (some '[') (':' :: rest)
    | c :: rest =>
      if c = ']' ∧ !isFirst then some ([], rest)
      else match before, c, rest with
        | some low, '-', next :: _ =>
          if next = ']' then add '-' (some '-') rest
          else do
            let (high, rest) ← match rest with
              | '\\' :: c :: rest => some (c, rest)
              | ['\\'] => none
              | c :: rest => some (c, rest)
              | [] => none
            let (more, rest) ← bracketRanges fuel none false rest
            return ((low, high) :: more, rest)
        | _, _, _ => add c (some c) rest

/-- Reads a pattern; `isPath` is for patterns of paths, `atStart` says that a part of a path begins
here. Nothing matches a pattern that cannot be read. -/
def glob? (isPath : Bool) : Nat → Bool → Octets → Option Glob
  | 0, _, _ => none
  | fuel + 1, atStart, cs =>
    let put (item : GlobItem) (rest : Octets) := (glob? isPath fuel false rest).map (item :: ·)
    match cs with
    | [] => some []
    | '\\' :: c :: rest => put (.char c) rest
    | ['\\'] => none
    | '?' :: rest => put .one rest
    | '[' :: rest => do
      let (isNegated, rest) := match rest with
        | '!' :: rest => (true, rest)
        | '^' :: rest => (true, rest)
        | rest => (false, rest)
      let (ranges, rest) ← bracketRanges (rest.length + 1) none true rest
      put (.bracket ⟨isNegated, ranges⟩) rest
    | '*' :: '*' :: rest =>
      let rest := rest.dropWhile (· = '*')
      if !isPath then put .anything rest
      else if atStart then
        match rest with
        | [] => some [.anything]
        | '/' :: rest => (glob? isPath fuel true rest).map (.directories :: ·)
        | '\\' :: '/' :: rest => (glob? isPath fuel true rest).map (.directories :: ·)
        | rest => put .many rest
      else put .many rest
    | '*' :: rest => put (if isPath then .many else .anything) rest
    | '/' :: rest => (glob? isPath fuel true rest).map (.char '/' :: ·)
    | c :: rest => put (.char c) rest

def scopeOf (pattern : Octets) : Scope :=
  if pattern.getLast? = some '/' ∧ pattern.length > 1 then .nothing
  else
    let isPath := '/' ∈ pattern
    let body := if pattern.head? = some '/' then pattern.tail else pattern
    match glob? isPath (body.length + 1) true body with
    | none => .nothing
    | some g => if isPath then .path g else .name g

def collectionMark : Octets := octets "[attr]"

def lineLimit : Nat := 2047

/-- Reads a line. Names for settings may be given only where `isTop` holds. -/
def line? (isTop : Bool) (cs : Octets) : Option Line :=
  let body := dropGap cs
  if body = [] ∨ body.head? = some '#' ∨ cs.length > lineLimit then none
  else
    let plain := (body.takeWhile fun c => !isGap c, body.dropWhile fun c => !isGap c)
    let (pattern, rest) := match body with
      | '"' :: inner => (quoted? (inner.length + 1) inner).getD plain
      | _ => plain
    if collectionMark.isPrefixOf pattern ∧ pattern.length > collectionMark.length then
      if isTop ∧ isName (pattern.drop collectionMark.length) then
        (settings? rest).map (.collection (pattern.drop collectionMark.length))
      else none
    else if pattern.head? = some '!' then none
    else (settings? rest).map (.rule (scopeOf pattern))

/-- The lines of an attributes file, up to the first zero byte. -/
def parse (isTop : Bool) (bs : Bytes) : List Line :=
  (splitAtSep '\n' ((Octets.ofBytes bs).takeWhile (· ≠ '\x00'))).filterMap (line? isTop)

/-- The lines of an attributes file that has a place in the tree. -/
structure Source where
  /-- The number of directories above the file. -/
  depth : Nat
  lines : List Line

/-- The names for several settings, those that win first. -/
def collections (sources : List Source) : Settings → List (Octets × Settings) :=
  fun binary =>
    (sources.flatMap fun s => s.lines.reverse.filterMap fun
      | .collection name settings => some (name, settings)
      | .rule .. => none) ++ [(octets "binary", binary)]

/-- What `binary` stands for unless a tree says otherwise. -/
def binarySettings : Settings :=
  [(octets "diff", .unset), (octets "merge", .unset), (octets "text", .unset)]

/-- Adds settings, the last first, where nothing is known yet. -/
def fill (named : List (Octets × Settings)) : Nat → Settings → Settings → Settings
  | 0, _, known => known
  | fuel + 1, settings, known =>
    settings.foldr (fun s known =>
      if (assoc? s.1 known).isSome then known
      else
        let known := known ++ [s]
        if s.2 = .set then fill named fuel ((assoc? s.1 named).getD []) known else known) known

def Scope.has (scope : Scope) (path : List Octets) : Bool :=
  match scope with
  | .name g => (path.getLast?.map (g.doesMatch false)).getD false
  | .path g => g.doesMatch true (joinWith ['/'] path)
  | .nothing => false

/-- All that is said about the file at a path, by the sources in the directories on the way to it,
the deepest first. -/
def ofPath (sources : List Source) (path : List Octets) : Settings :=
  let named := collections sources binarySettings
  sources.foldl (fun known source =>
    source.lines.foldr (fun line known =>
      match line with
      | .rule scope settings =>
        if scope.has (path.drop source.depth) then fill named (named.length + 1) settings known
        else known
      | .collection .. => known) known) []

end Depot.Attributes
