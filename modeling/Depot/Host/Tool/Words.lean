import Depot.Host.Condition
import Depot.Host.Format
import Depot.Host.Tool

/-! Tools that work on their arguments: they print, count and compare. -/

namespace Depot.Host.Tool

open Files

def echo : Work Unit := do
  let (noLine, hasEscapes, words) := options false false (← read).args
  if hasEscapes then
    let (text, goesOn) := echoed .tool words
    Work.put (text ++ if noLine ∨ !goesOn then [] else ['\n'])
  else Work.put (joinWith [' '] words ++ if noLine then [] else ['\n'])
where
  /-- The options that come first: no line feed, escapes replaced; and the words after them. -/
  options : Bool → Bool → List Octets → Bool × Bool × List Octets
    | noLine, hasEscapes, ('-' :: c :: cs) :: rest =>
      if (c :: cs).all fun c => c ∈ ['n', 'e', 'E'] then
        let last := ((c :: cs).filter (· ≠ 'n')).getLast?
        let hasEscapes := match last with
          | some c => c = 'e'
          | none => hasEscapes
        options (noLine || (c :: cs).contains 'n') hasEscapes rest
      else (noLine, hasEscapes, ('-' :: c :: cs) :: rest)
    | noLine, hasEscapes, args => (noLine, hasEscapes, args)

def print : Work Unit := do
  let args := match (← read).args with
    | ['-', '-'] :: args => args
    | args => args
  match args with
  | [] => Work.misused (octets "missing operand")
  | format :: args =>
    let (writes, code) := printed .tool format args
    for (isComplaint, text) in writes do
      if isComplaint then Work.putError ((← read).name ++ octets ": " ++ text ++ ['\n'])
      else Work.put text
    modify fun b => { b with status := code }

/-- Far more lines than a reader that ends early will take. -/
def yes : Work Unit := do
  let args := (← read).args
  let args := if args.head? = some ['-', '-'] then args.tail else args
  let line := (if args = [] then ['y'] else joinWith [' '] args) ++ ['\n']
  Work.put (List.replicate (max 1 (262144 / line.length)) line).flatten
  throw 141

/-! Sequences of numbers -/

/-- A decimal number: its value in units of its last place, and the number of places. -/
structure Decimal where
  units : Int
  places : Nat

def decimal? (cs : Octets) : Option Decimal :=
  let (isNegative, body) := match cs with
    | '-' :: body => (true, body)
    | '+' :: body => (false, body)
    | body => (false, body)
  let whole := body.takeWhile Char.isDigit
  let (part, rest) := match body.drop whole.length with
    | '.' :: rest => (rest.takeWhile Char.isDigit, rest.dropWhile Char.isDigit)
    | rest => ([], rest)
  if (whole ++ part) = [] ∨ rest ≠ [] then none
  else
    let n : Int := naturalOf (whole ++ part)
    some ⟨if isNegative then -n else n, part.length⟩

/-- The value in units of another place further on. -/
def Decimal.at (d : Decimal) (places : Nat) : Int := d.units * (Nat.pow 10 (places - d.places) : Nat)

/-- A number of units as a decimal number, its digits filled up to a width. -/
def decimalText (places width : Nat) (units : Int) : Octets :=
  let ds := Real.withPoint places false units.natAbs
  let sign := if units < 0 then ['-'] else []
  sign ++ List.replicate (width - ds.length - sign.length) '0' ++ ds

def formatted (format : Octets) (d : Decimal) : Octets :=
  ((printed .tool format [decimalText d.places 0 d.units]).1.filter fun w => !w.1).flatMap (·.2)

/-- Negative numbers among the arguments are no options. -/
def sequenceOptions : List Octets → List (Char × Octets) × List Octets
  | ['-', 's'] :: s :: args => more ('s', s) (sequenceOptions args)
  | ('-' :: 's' :: c :: cs) :: args => more ('s', c :: cs) (sequenceOptions args)
  | ['-', 'f'] :: f :: args => more ('f', f) (sequenceOptions args)
  | ('-' :: 'f' :: c :: cs) :: args => more ('f', c :: cs) (sequenceOptions args)
  | ['-', 'w'] :: args => more ('w', []) (sequenceOptions args)
  | ['-', '-'] :: args => ([], args)
  | args =>
    match args with
    | [] => ([], [])
    | arg :: rest =>
      match arg with
      | '-' :: '-' :: name =>
        let value := (name.dropWhile (· ≠ '=')).drop 1
        if (octets "separator=").isPrefixOf name then more ('s', value) (sequenceOptions rest)
        else if (octets "format=").isPrefixOf name then more ('f', value) (sequenceOptions rest)
        else if name = octets "equal-width" then more ('w', []) (sequenceOptions rest)
        else ([], args)
      | _ => ([], args)
where
  more (o : Char × Octets) (r : List (Char × Octets) × List Octets) :
      List (Char × Octets) × List Octets := (o :: r.1, r.2)

def sequence : Work Unit := do
  let (found, args) := sequenceOptions (← read).args
  if let ('-' :: c :: cs) :: _ := args then
    if !(c.isDigit || c = '.') then
      if c = '-' then Work.misused (octets "unrecognized option '--" ++ cs ++ ['\''])
      else Work.misused (octets "invalid option -- '" ++ [c, '\''])
  if args = [] then Work.misused (octets "missing operand")
  if let extra :: _ := args.drop 3 then Work.misused (octets "extra operand " ++ inQuotes extra)
  let mut numbers : List Decimal := []
  for arg in args do
    match decimal? arg with
    | some d => numbers := numbers ++ [d]
    | none => Work.misused (octets "invalid floating point argument: " ++ inQuotes arg)
  let one : Decimal := ⟨1, 0⟩
  let (first, step, last) := match numbers with
    | [last] => (one, one, last)
    | [first, last] => (first, one, last)
    | first :: step :: last :: _ => (first, step, last)
    | [] => (one, one, one)
  if step.units = 0 then
    Work.misused (octets "invalid Zero increment value: " ++ inQuotes (args.getD 1 []))
  let places := max first.places step.places
  let fine := max places last.places
  let (a, s, b) := (first.at fine, step.at fine, last.at fine)
  let count := if (s > 0 ∧ b < a) ∨ (s < 0 ∧ a < b) then 0 else ((b - a) / s).toNat + 1
  let scale : Int := (Nat.pow 10 (fine - places) : Nat)
  let values := (List.range count).map fun (i : Nat) => (a + s * (i : Int)) / scale
  let option (letter : Char) := (found.reverse.find? fun f => f.1 = letter).map (·.2)
  let width := if (option 'w').isNone then 0
    else max (decimalText places 0 (values.getLastD 0)).length
      (decimalText places 0 (first.at places)).length
  let texts := values.map fun v => match option 'f' with
    | some format => formatted format ⟨v, places⟩
    | none => decimalText places width v
  if texts ≠ [] then Work.put (joinWith ((option 's').getD ['\n']) texts ++ ['\n'])

/-! Paths as texts -/

/-- The last component of a path, without an ending that is not all of it. -/
def baseName (path ending : Octets) : Octets :=
  let name := ((splitAtSep '/' path).filter (· ≠ [])).getLast?.getD (if path = [] then [] else ['/'])
  if ending.isSuffixOf name && ending.length < name.length then
    name.take (name.length - ending.length)
  else name

def dirName (path : Octets) : Octets :=
  let isSlash := fun c : Char => c = '/'
  let above := ((path.reverse.dropWhile isSlash).dropWhile fun c => c ≠ '/').dropWhile isSlash
  if above ≠ [] then above.reverse else if path.head? = some '/' then ['/'] else ['.']

def baseNames : Work Unit := do
  let o ← Options.read "az" [.flag 'a' "multiple", .valued 's' "suffix", .flag 'z' "zero"]
    (← read).args true
  let mark := if o.has 'z' then ['\x00'] else ['\n']
  if o.operands = [] then Work.misused (octets "missing operand")
  if o.has 'a' ∨ o.has 's' then
    for path in o.operands do
      Work.put (baseName path ((o.value? 's').getD []) ++ mark)
  else match o.operands with
    | [path] => Work.put (baseName path [] ++ mark)
    | [path, ending] => Work.put (baseName path ending ++ mark)
    | _ :: _ :: extra :: _ => Work.misused (octets "extra operand " ++ inQuotes extra)
    | [] => return ()

def dirNames : Work Unit := do
  let o ← Options.read "z" [.flag 'z' "zero"] (← read).args
  if o.operands = [] then Work.misused (octets "missing operand")
  for path in o.operands do
    Work.put (dirName path ++ if o.has 'z' then ['\x00'] else ['\n'])

/-! What the host tells of itself -/

def workingDirectory : Work Unit := do
  Work.putLine (.ofBytes (Disk.pathOf (← get).disk.cwd))

def showVariables : Work Unit := do
  let call ← read
  if call.args = [] then
    Work.put (call.environment.flatMap fun v => v.1 ++ '=' :: v.2 ++ ['\n'])
  for name in call.args do
    match call.environment.find? fun v => v.1 = name with
    | some (_, value) => Work.putLine value
    | none => modify fun b => { b with status := 1 }

def identity : Work Unit := do
  let o ← Options.read "ugGnr" [] (← read).args
  let isName := o.has 'n'
  if o.has 'u' ∨ o.has 'g' ∨ o.has 'G' then Work.putLine (octets (if isName then "root" else "0"))
  else Work.putLine (octets "uid=0(root) gid=0(root) groups=0(root)")

def systemName : Work Unit := do
  let o ← Options.read "asnrvmpio" [] (← read).args
  Work.putLine (octets (if o.has 'm' then "x86_64" else if o.has 'o' then "GNU/Linux" else "Linux"))

def sleep : Work Unit := do
  let args := (← read).args
  if args = [] then Work.misused (octets "missing operand")
  for arg in args do
    let body := match arg.reverse with
      | c :: rest => if c ∈ ['s', 'm', 'h', 'd'] then rest.reverse else arg
      | [] => arg
    match decimal? body with
    | some d => if d.units < 0 then
        Work.misused (octets "invalid time interval " ++ inQuotes arg)
    | none => Work.misused (octets "invalid time interval " ++ inQuotes arg)

/-! Conditions -/

def condition (isBracket : Bool) : Work Unit := do
  let args := (← read).args
  if isBracket ∧ args.getLast? ≠ some [']'] then Work.die (octets "missing ']'") 2
  let words := if isBracket then args.dropLast else args
  match Condition.holds (← get).disk words with
  | .ok doesHold => modify fun b => { b with status := if doesHold then 0 else 1 }
  | .error reason =>
    let number := reason.drop (octets "Illegal number: ").length
    if (octets "Illegal number: ").isPrefixOf reason then
      Work.die (octets "invalid integer " ++ inQuotes number) 2
    else Work.die reason 2

end Depot.Host.Tool
