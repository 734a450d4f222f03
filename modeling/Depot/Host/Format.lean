import Depot.Host.Quote
import Depot.Host.Real
import Depot.Text.Utf8

/-! The formats of `printf` and the escapes of `printf` and `echo`. -/

namespace Depot.Host

def isOctal (c : Char) : Bool := '0' ≤ c && c ≤ '7'

/-- The byte of octal digits at the start of a text, at most three, and the rest. -/
def octalByte (cs : Octets) : Char × Octets :=
  let ds := (cs.take 3).takeWhile isOctal
  (Char.ofNat (valueOf 8 ds % 256), cs.drop ds.length)

def escapeLetter? : Char → Option Char
  | 'a' => some '\x07'
  | 'b' => some '\x08'
  | 'e' => some '\x1b'
  | 'f' => some '\x0c'
  | 'n' => some '\n'
  | 'r' => some '\r'
  | 't' => some '\t'
  | 'v' => some '\x0b'
  | '\\' => some '\\'
  | _ => none

/-- Who reads a format: the shell, or a program. -/
inductive Dialect where
  | shell | tool
  deriving DecidableEq

inductive Escape where
  | text (cs rest : Octets)
  /-- The end of all output. -/
  | done
  | fault (reason : String)

def hexByte? (cs : Octets) : Option (Char × Octets) :=
  let ds := (cs.take 2).takeWhile fun c => (Hex.value? c).isSome
  if ds = [] then none else some (Char.ofNat (valueOf 16 ds), cs.drop ds.length)

/-- A character by its number, if it is one that needs no encoding. -/
def numbered (letter : Char) (count : Nat) (cs : Octets) : Escape :=
  let ds := (cs.take count).takeWhile fun c => (Hex.value? c).isSome
  if ds.length < count then .fault "missing hexadecimal number in escape"
  else
    let n := valueOf 16 ds
    let rest := cs.drop count
    if n < 128 then .text [Char.ofNat n] rest
    else .text ('\\' :: letter :: ds.map Char.toUpper) rest

/-- Reads what follows a backslash. In an argument, octal numbers may begin with a zero more. -/
def escape (d : Dialect) (isArgument : Bool) (cs : Octets) : Escape :=
  let octal (cs : Octets) : Escape :=
    let (c, rest) := octalByte cs
    .text [c] rest
  match cs with
  | [] => .text ['\\'] []
  | c :: rest =>
    if c = 'c' ∧ (isArgument ∨ d = .tool) then .done
    else if c = '0' ∧ isArgument ∧ rest.head?.any isOctal then octal rest
    else if isOctal c then octal cs
    else if d = .tool ∧ c = 'x' then
      match hexByte? rest with
      | some (c, rest) => .text [c] rest
      | none => .fault "missing hexadecimal number in escape"
    else if d = .tool ∧ c = 'u' then numbered c 4 rest
    else if d = .tool ∧ c = 'U' then numbered c 8 rest
    else if d = .tool ∧ c = '"' then .text ['"'] rest
    else match escapeLetter? c with
      | some e => .text [e] rest
      | none => .text (if d = .tool then ['\\', c] else ['\\']) (if d = .tool then rest else cs)

/-- A text with its escapes replaced, and whether output goes on after it. -/
def unescaped (d : Dialect) : Nat → Octets → Octets × Bool
  | 0, _ => ([], true)
  | _ + 1, [] => ([], true)
  | fuel + 1, '\\' :: rest =>
    match escape d true rest with
    | .done => ([], false)
    | .fault _ =>
      let (more, goesOn) := unescaped d fuel rest
      ('\\' :: more, goesOn)
    | .text out rest =>
      let (more, goesOn) := unescaped d fuel rest
      (out ++ more, goesOn)
  | fuel + 1, c :: rest =>
    let (more, goesOn) := unescaped d fuel rest
    (c :: more, goesOn)

def echoed (d : Dialect) (words : List Octets) : Octets × Bool :=
  let text := joinWords words
  unescaped d (text.length + 1) text
where
  joinWords : List Octets → Octets
    | [] => []
    | [w] => w
    | w :: ws => w ++ ' ' :: joinWords ws

structure Layout where
  flags : List Char
  width : Nat
  precision : Option Nat

namespace Layout

def fill (l : Layout) (cs : Octets) : Octets :=
  let missing := List.replicate (l.width - cs.length) ' '
  if l.flags.contains '-' then cs ++ missing else missing ++ cs

def number (l : Layout) (mayFill : Bool) (start ds : Octets) : Octets :=
  if mayFill ∧ l.flags.contains '0' ∧ !l.flags.contains '-' then
    start ++ List.replicate (l.width - start.length - ds.length) '0' ++ ds
  else l.fill (start ++ ds)

def sign (l : Layout) (isNegative : Bool) : Octets :=
  if isNegative then ['-'] else if l.flags.contains '+' then ['+']
  else if l.flags.contains ' ' then [' '] else []

def exact (l : Layout) (ds : Octets) : Octets :=
  match l.precision with
  | none => ds
  | some n => if n = 0 ∧ ds = ['0'] then [] else List.replicate (n - ds.length) '0' ++ ds

def signed (l : Layout) (n : Int) : Octets :=
  l.number l.precision.isNone (l.sign (n < 0)) (l.exact (digits n.natAbs))

def unsigned (l : Layout) (letter : Char) (n : Nat) : Octets :=
  let base := if letter = 'o' then 8 else if letter = 'u' then 10 else 16
  let ds := l.exact (inBase base n)
  let ds := if letter = 'o' ∧ l.flags.contains '#' ∧ ds.head? ≠ some '0' then '0' :: ds else ds
  let start := if base = 16 ∧ l.flags.contains '#' ∧ n ≠ 0 then ['0', 'x'] else []
  let out := l.number l.precision.isNone start ds
  if letter = 'X' then out.map Char.toUpper else out

def real (l : Layout) (letter : Char) (x : Real) : Octets :=
  l.number x.isFinite (l.sign x.isNegative)
    (x.text letter (l.precision.getD 6) (l.flags.contains '#'))

def text (l : Layout) (cs : Octets) : Octets :=
  l.fill (match l.precision with
    | some n => cs.take n
    | none => cs)

end Layout

structure Printing where
  /-- Texts and complaints, the last one first. -/
  writes : List (Bool × Octets) := []
  args : List Octets
  /-- An argument was asked for. -/
  hasTaken : Bool := false
  code : Nat := 0
  goesOn : Bool := true

namespace Printing

def put (p : Printing) (cs : Octets) : Printing := { p with writes := (false, cs) :: p.writes }

def complain (p : Printing) (cs : Octets) : Printing :=
  { p with writes := (true, cs) :: p.writes, code := 1 }

/-- Complains and ends all output. -/
def fail (p : Printing) (cs : Octets) (code : Nat) : Printing :=
  { p with writes := (true, cs) :: p.writes, code := code, goesOn := false }

def next (p : Printing) : Option Octets × Printing :=
  (p.args.head?, { p with args := p.args.tail, hasTaken := true })

def check (p : Printing) (d : Dialect) (arg rest : Octets) (isTooLarge : Bool) : Printing :=
  let shown := if d = .tool then inQuotes arg else arg
  if d = .tool ∧ isTooLarge then p.complain (shown ++ octets ": Numerical result out of range")
  else if rest ≠ [] then
    let isNone := rest.length = arg.length
    let reason := match d with
      | .shell => if isNone then ": expected numeric value" else ": not completely converted"
      | .tool => if isNone then ": expected a numeric value" else ": value not completely converted"
    p.complain (shown ++ octets reason)
  else if isTooLarge then p.complain (shown ++ octets ": Numerical result out of range")
  else p

/-- The number of a character that an argument shows after a quote. -/
def quoted? (d : Dialect) (arg : Octets) : Option (Nat × Octets) :=
  match arg with
  | q :: rest =>
    if q = '"' ∨ q = '\'' then
      match d, rest with
      | _, c :: more => some (c.toNat, more)
      | .shell, [] => some (0, [])
      | .tool, [] => none
    else none
  | [] => none

def checkQuoted (p : Printing) (d : Dialect) (rest : Octets) : Printing :=
  if d = .tool ∧ rest ≠ [] then
    { p with
      writes := (true, octets "warning: " ++ rest ++
        octets ": character(s) following character constant have been ignored") :: p.writes }
  else p

def nextInteger (p : Printing) (d : Dialect) (isSigned : Bool) : Int × Printing :=
  match p.next with
  | (none, p) => (0, p)
  | (some arg, p) =>
    match quoted? d arg with
    | some (n, rest) => (n, p.checkQuoted d rest)
    | none =>
      let r := integerStart true arg
      if isSigned then (r.value, p.check d arg r.rest r.isTooLarge)
      else
        let (n, isTooLarge) := naturalValue arg
        (n, p.check d arg r.rest isTooLarge)
where
  /-- The value of an argument without a sign; a sign turns it around. -/
  naturalValue (arg : Octets) : Nat × Bool :=
    let body := dropSpace arg
    let (isNegative, body) := match body with
      | '-' :: body => (true, body)
      | '+' :: body => (false, body)
      | _ => (false, body)
    let (base, body) := baseOf body
    let n := valueOf base (body.takeWhile fun c => (digitValue? base c).isSome)
    let limit := 18446744073709551616
    if n ≥ limit then (limit - 1, true)
    else if isNegative ∧ n ≠ 0 then (limit - n, false) else (n, false)

def nextReal (p : Printing) (d : Dialect) : Real × Printing :=
  match p.next with
  | (none, p) => (.finite false 0 0, p)
  | (some arg, p) =>
    match quoted? d arg with
    | some (n, rest) => (.finite false n 0, p.checkQuoted d rest)
    | none =>
      let r := Real.start (if d = .tool then extended else double) arg
      (r.value, p.check d arg r.rest r.isOutOfRange)

/-- A number of a layout: digits, or a star for the next argument. -/
def measure (p : Printing) (d : Dialect) (cs : Octets) : Option Int × Octets × Printing :=
  match cs with
  | '*' :: rest =>
    let (n, p) := p.nextInteger d true
    (some n, rest, p)
  | _ =>
    let ds := cs.takeWhile Char.isDigit
    (if ds = [] then none else some (naturalOf ds), cs.drop ds.length, p)

def layout (p : Printing) (d : Dialect) (cs : Octets) : Layout × Octets × Printing :=
  let flags := cs.takeWhile fun c => c ∈ ['-', '0', '+', ' ', '#']
  let (width, rest, p) := p.measure d (cs.drop flags.length)
  let width := width.getD 0
  let flags := if width < 0 then '-' :: flags else flags
  match rest with
  | '.' :: rest =>
    let (precision, rest, p) := p.measure d rest
    let precision := precision.getD 0
    (⟨flags, width.natAbs, if precision < 0 then none else some precision.toNat⟩, rest, p)
  | rest => (⟨flags, width.natAbs, none⟩, rest, p)

def directive (p : Printing) (d : Dialect) (l : Layout) (letter : Char) (shown : Octets) :
    Printing :=
  match letter with
  | 's' =>
    let (arg, p) := p.next
    p.put (l.text (arg.getD []))
  | 'b' =>
    let (arg, p) := p.next
    let arg := arg.getD []
    let (cs, goesOn) := unescaped d (arg.length + 1) arg
    { p.put (l.text cs) with goesOn := goesOn }
  | 'c' =>
    let (arg, p) := p.next
    p.put (l.fill [(arg.getD []).headD '\x00'])
  | 'd' | 'i' =>
    let (n, p) := p.nextInteger d true
    p.put (l.signed n)
  | 'u' | 'o' | 'x' | 'X' =>
    let (n, p) := p.nextInteger d false
    p.put (l.unsigned letter n.toNat)
  | 'e' | 'E' | 'f' | 'F' | 'g' | 'G' =>
    let (x, p) := p.nextReal d
    p.put (l.real letter x)
  | 'q' =>
    if d = .tool then
      let (arg, p) := p.next
      p.put (l.fill (nameShown (arg.getD [])))
    else p.fail (shown ++ octets ": invalid directive") 2
  | _ =>
    if d = .tool then p.fail (shown ++ octets ": invalid conversion specification") 1
    else p.fail (shown ++ octets ": invalid directive") 2

def pass (d : Dialect) : Nat → Octets → Printing → Printing
  | 0, _, p => p
  | fuel + 1, cs, p =>
    if !p.goesOn then p
    else match cs with
      | [] => p
      | '%' :: '%' :: rest => pass d fuel rest (p.put ['%'])
      | '%' :: rest =>
        let (l, after, p) := p.layout d rest
        let after := if d = .tool then after.dropWhile fun c => c ∈ ['l', 'h', 'L', 'j', 'z', 't']
          else after
        match after with
        | letter :: after =>
          let shown := '%' :: rest.take (rest.length - after.length)
          pass d fuel after (p.directive d l letter shown)
        | [] =>
          if d = .tool then p.fail ('%' :: rest ++ octets ": invalid conversion specification") 1
          else p.fail (octets "missing format character") 2
      | '\\' :: rest =>
        match escape d false rest with
        | .text out rest => pass d fuel rest (p.put out)
        | .done => { p with goesOn := false }
        | .fault reason => p.fail (octets reason) 1
      | c :: rest => pass d fuel rest (p.put [c])

/-- Passes through a format until the arguments are used up. -/
def passes (d : Dialect) (format : Octets) : Nat → Printing → Printing
  | 0, p => p
  | fuel + 1, p =>
    let p := pass d (format.length + 1) format { p with hasTaken := false }
    if !p.goesOn ∨ p.args = [] then p
    else if p.hasTaken then passes d format fuel p
    else if d = .tool then
      { p with
        writes := (true, octets "warning: ignoring excess arguments, starting with " ++
          inQuotes (p.args.headD [])) :: p.writes }
    else p

end Printing

/-- What `printf` gives for a format and arguments: texts and complaints in order. -/
def printed (d : Dialect) (format : Octets) (args : List Octets) : List (Bool × Octets) × Nat :=
  let p := Printing.passes d format (args.length + 1) { args := args }
  (p.writes.reverse, p.code)

end Depot.Host
