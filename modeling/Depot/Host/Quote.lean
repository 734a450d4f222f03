import Depot.Host.Number

/-! Texts as tools show them in quotes. -/

namespace Depot.Host

def controlLetter? (c : Char) : Option Char :=
  match c.toNat with
  | 7 => some 'a'
  | 8 => some 'b'
  | 9 => some 't'
  | 10 => some 'n'
  | 11 => some 'v'
  | 12 => some 'f'
  | 13 => some 'r'
  | _ => none

def isPrintable (c : Char) : Bool := ' ' ≤ c && c ≤ '~'

def octalCode (c : Char) : Octets :=
  let ds := inBase 8 c.toNat
  List.replicate (3 - ds.length) '0' ++ ds

def escaped (c : Char) : Octets :=
  '\\' :: match controlLetter? c with
    | some letter => [letter]
    | none => octalCode c

/-- A text between single quotes, with escapes for what cannot be shown. -/
def inQuotes (cs : Octets) : Octets :=
  '\'' :: (cs.flatMap fun c =>
    if c = '\'' ∨ c = '\\' then ['\\', c]
    else if isPrintable c then [c]
    else escaped c) ++ ['\'']

/-- Shells, or readers of complaints, take these characters for more than themselves. -/
def isShellSpecial (c : Char) : Bool :=
  " \t\n!\"$&'()*:;<=>?[\\^\x60|".toList.contains c

/-- The runs of a text whose characters agree on a property. -/
def runs (p : Char → Bool) : Octets → List (Bool × Octets)
  | [] => []
  | c :: cs =>
    match runs p cs with
    | (b, run) :: rest => if b = p c then (b, c :: run) :: rest else (p c, [c]) :: (b, run) :: rest
    | [] => [(p c, [c])]

/-- Runs of a text within single quotes. Those that cannot be shown stand apart, in escapes. -/
def quotedRuns : List (Bool × Octets) → Octets
  | [] => ['\'']
  | (true, run) :: rest =>
    (run.flatMap fun c => if c = '\'' then "'\\''".toList else [c]) ++ quotedRuns rest
  | (false, run) :: rest =>
    "'$'".toList ++ run.flatMap escaped ++ (if rest = [] then [] else "''".toList) ++ quotedRuns rest

def inShellQuotes (cs : Octets) : Octets :=
  let isSimple := cs.all fun c => isPrintable c && !(['"', '$', '\x60', '\\', '!'].contains c)
  if cs.contains '\'' ∧ isSimple then '"' :: cs ++ ['"'] else '\'' :: quotedRuns (runs isPrintable cs)

def nameShown (cs : Octets) : Octets :=
  let needsQuotes := match cs with
    | [] | ['\x7b'] | ['\x7d'] | '#' :: _ | '~' :: _ => true
    | cs => cs.any fun c => !isPrintable c || isShellSpecial c
  if needsQuotes then inShellQuotes cs else cs

end Depot.Host
