import Depot.Host.Number

/-!
Real numbers of a machine: read from decimal texts by rounding to the nearest one, and written by
rounding what they are exactly.
-/

namespace Depot.Host

/-- The bits of a fraction, and the range of exponents of the last bit. -/
structure RealFormat where
  bits : Nat
  least : Int
  largest : Int

def double : RealFormat := ⟨53, -1074, 971⟩

def extended : RealFormat := ⟨64, -16445, 16320⟩

inductive Real where
  /-- The number `mantissa * 2 ^ exponent`. -/
  | finite (isNegative : Bool) (mantissa : Nat) (exponent : Int)
  | infinite (isNegative : Bool)
  | undefined (isNegative : Bool)

namespace Real

/-- The nearest integer to a fraction, an even one between two. -/
def nearest (num den : Nat) : Nat :=
  let q := num / den
  let r := num % den
  if 2 * r < den ∨ (2 * r = den ∧ q % 2 = 0) then q else q + 1

def scaled (base : Nat) (exponent : Int) (num den : Nat) : Nat × Nat :=
  if exponent ≥ 0 then (num * Nat.pow base exponent.toNat, den)
  else (num, den * Nat.pow base (-exponent).toNat)

def round (f : RealFormat) (isNegative : Bool) (num den : Nat) : Real :=
  if num = 0 then .finite isNegative 0 0
  else
    let guess : Int := (num.log2 : Int) - den.log2 - f.bits
    let fits (e : Int) : Bool :=
      let (n, d) := scaled 2 (-e) num den
      n / d < Nat.pow 2 f.bits
    let e := if fits guess then guess else guess + 1
    let e := max e f.least
    let (n, d) := scaled 2 (-e) num den
    let m := nearest n d
    let (m, e) := if m = Nat.pow 2 f.bits then (m / 2, e + 1) else (m, e)
    if e > f.largest then .infinite isNegative else .finite isNegative m e

structure Start where
  value : Real
  rest : Octets
  isFound : Bool
  isOutOfRange : Bool := false

def exponentOf (letters : Octets) (cs : Octets) : Int × Octets :=
  match cs with
  | c :: rest =>
    let (isNegative, body) := match rest with
      | '-' :: body => (true, body)
      | '+' :: body => (false, body)
      | _ => (false, rest)
    let ds := body.takeWhile Char.isDigit
    if letters.contains c ∧ ds ≠ [] then
      let n : Int := min (naturalOf ds) 100000
      (if isNegative then -n else n, body.drop ds.length)
    else (0, cs)
  | [] => (0, [])

/-- The digits of a number in a base, those after its point counted, and what follows. -/
def digitsOf (base : Nat) (cs : Octets) : Octets × Nat × Octets :=
  let isDigit := fun c => (digitValue? base c).isSome
  let whole := cs.takeWhile isDigit
  match cs.drop whole.length with
  | '.' :: rest =>
    let part := rest.takeWhile isDigit
    if whole = [] ∧ part = [] then ([], 0, cs)
    else (whole ++ part, part.length, rest.drop part.length)
  | rest => (whole, 0, rest)

def isSame (cs : Octets) (text : String) : Bool :=
  (cs.take text.length).map Char.toLower = text.toList

def start (f : RealFormat) (cs : Octets) : Start :=
  let body := dropSpace cs
  let (isNegative, body) := match body with
    | '-' :: body => (true, body)
    | '+' :: body => (false, body)
    | _ => (false, body)
  if isSame body "infinity" then ⟨.infinite isNegative, body.drop 8, true, false⟩
  else if isSame body "inf" then ⟨.infinite isNegative, body.drop 3, true, false⟩
  else if isSame body "nan" then ⟨.undefined isNegative, body.drop 3, true, false⟩
  else
    let hex := if isSame body "0x" then digitsOf 16 (body.drop 2) else ([], 0, [])
    let (base, ds, places, rest) :=
      if hex.1 ≠ [] then (16, hex) else (10, digitsOf 10 body)
    if ds = [] then ⟨.finite false 0 0, cs, false, false⟩
    else
      let (e, rest) := exponentOf (if base = 16 then ['p', 'P'] else ['e', 'E']) rest
      let n := valueOf base ds
      let size := e + ds.length
      let value :=
        if n = 0 ∨ size < -6000 then Real.finite isNegative 0 0
        else if size > 6000 then .infinite isNegative
        else if base = 16 then
          let (n, d) := scaled 2 (e - 4 * places) n 1
          round f isNegative n d
        else
          let (n, d) := scaled 10 (e - places) n 1
          round f isNegative n d
      let isOutOfRange := match value with
        | .infinite _ => true
        | .finite _ 0 _ => n ≠ 0
        | _ => false
      ⟨value, rest, true, isOutOfRange⟩

/-! Writing -/

/-- The digits of a number with so many places after the point, which is always written if it is
asked for. -/
def withPoint (places : Nat) (hasPoint : Bool) (n : Nat) : Octets :=
  let ds := digits n
  let ds := List.replicate (places + 1 - ds.length) '0' ++ ds
  let whole := ds.take (ds.length - places)
  let part := ds.drop (ds.length - places)
  whole ++ (if places = 0 ∧ !hasPoint then [] else ['.']) ++ part

def fraction (mantissa : Nat) (exponent : Int) : Nat × Nat := scaled 2 exponent mantissa 1

def fixedText (mantissa : Nat) (exponent : Int) (places : Nat) (hasPoint : Bool) : Octets :=
  let (n, d) := fraction mantissa exponent
  withPoint places hasPoint (nearest (n * Nat.pow 10 places) d)

/-- The digits of a number, so many after the first, and the exponent of the first. -/
def leading (mantissa : Nat) (exponent : Int) (places : Nat) : Nat × Int :=
  if mantissa = 0 then (0, 0)
  else
    let (n, d) := fraction mantissa exponent
    let guess : Int := ((digits n).length : Int) - (digits d).length - 1
    let isBelow (x : Int) : Bool :=
      let (n, d) := scaled 10 (-x) n d
      n < 10 * d
    let x := if isBelow guess then guess else guess + 1
    let (n, d) := scaled 10 ((places : Int) - x) n d
    let digits := nearest n d
    if digits = Nat.pow 10 (places + 1) then (digits / 10, x + 1) else (digits, x)

def exponentText (letter : Char) (x : Int) : Octets :=
  let ds := digits x.natAbs
  letter :: (if x < 0 then '-' else '+') :: (List.replicate (2 - ds.length) '0' ++ ds)

/-- Zeros after the point are left out, and a point that ends the number. -/
def dropZeros (cs : Octets) : Octets :=
  if cs.contains '.' then
    let cs := (cs.reverse.dropWhile (· = '0')).reverse
    if cs.getLast? = some '.' then cs.dropLast else cs
  else cs

/-- The text of a number without its sign. The letter says how: with a point (`f`), with an exponent
(`e`), or in the shorter of these ways (`g`). -/
def text (letter : Char) (places : Nat) (isAlternative : Bool) : Real → Octets
  | .infinite _ => if letter.isUpper then ['I', 'N', 'F'] else ['i', 'n', 'f']
  | .undefined _ => if letter.isUpper then ['N', 'A', 'N'] else ['n', 'a', 'n']
  | .finite _ m e =>
    let scientific (places : Nat) : Octets × Octets :=
      let (ds, x) := leading m e places
      (withPoint places isAlternative ds, exponentText (if letter.isUpper then 'E' else 'e') x)
    match letter.toLower with
    | 'f' => fixedText m e places isAlternative
    | 'e' =>
      let (ds, x) := scientific places
      ds ++ x
    | _ =>
      let places := if places = 0 then 1 else places
      let (_, x) := leading m e (places - 1)
      let finish (cs : Octets) := if isAlternative then cs else dropZeros cs
      if x < -4 ∨ x ≥ places then
        let (ds, x) := scientific (places - 1)
        finish ds ++ x
      else finish (fixedText m e (places - 1 - x).toNat isAlternative)

def isNegative : Real → Bool
  | .finite b _ _ | .infinite b | .undefined b => b

def isFinite : Real → Bool
  | .finite .. => true
  | _ => false

end Real

end Depot.Host
