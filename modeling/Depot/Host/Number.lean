import Depot.Text.Utf8

/-! Numbers as texts, in the ways that shells and tools read them. -/

namespace Depot.Host

def digits (n : Nat) : Octets := (toString n).toList

def intDigits (n : Int) : Octets := (toString n).toList

def digitValue? (base : Nat) (c : Char) : Option Nat :=
  let value := if c.isDigit then c.toNat - '0'.toNat
    else if 'a' ≤ c ∧ c ≤ 'z' then c.toNat - 'a'.toNat + 10
    else if 'A' ≤ c ∧ c ≤ 'Z' then c.toNat - 'A'.toNat + 10
    else base
  if value < base then some value else none

def valueOf (base : Nat) (cs : Octets) : Nat :=
  cs.foldl (fun n c => n * base + (digitValue? base c).getD 0) 0

def naturalOf (cs : Octets) : Nat := valueOf 10 cs

def inBase (base n : Nat) : Octets := Nat.toDigits base n

def isSpace (c : Char) : Bool := c = ' ' || ('\t' ≤ c && c ≤ '\x0d')

def dropSpace (cs : Octets) : Octets := cs.dropWhile isSpace

def leastInteger : Int := -9223372036854775808
def largestInteger : Int := 9223372036854775807

def wrap (n : Int) : Int :=
  (n + 9223372036854775808) % 18446744073709551616 - 9223372036854775808

structure IntegerStart where
  value : Int
  /-- The text after it; all of it if there is no integer. -/
  rest : Octets
  hasDigits : Bool
  isTooLarge : Bool := false

/-- Digits in a base given by how they begin, and the text after that beginning. -/
def baseOf (cs : Octets) : Nat × Octets :=
  match cs with
  | '0' :: x :: c :: rest =>
    if (x = 'x' ∨ x = 'X') ∧ (digitValue? 16 c).isSome then (16, c :: rest) else (8, cs)
  | '0' :: _ => (8, cs)
  | _ => (10, cs)

/-- Reads an integer at the start of a text, in base ten or in the base that its digits say. -/
def integerStart (hasBase : Bool) (cs : Octets) : IntegerStart :=
  let body := dropSpace cs
  let (isNegative, body) := match body with
    | '-' :: body => (true, body)
    | '+' :: body => (false, body)
    | _ => (false, body)
  let (base, body) := if hasBase then baseOf body else (10, body)
  let ds := body.takeWhile fun c => (digitValue? base c).isSome
  if ds = [] then ⟨0, cs, false, false⟩
  else
    let n : Int := valueOf base ds
    let n := if isNegative then -n else n
    let rest := body.drop ds.length
    if n < leastInteger then ⟨leastInteger, rest, true, true⟩
    else if n > largestInteger then ⟨largestInteger, rest, true, true⟩
    else ⟨n, rest, true, false⟩

/-- The integer that a text is, blanks around it allowed. -/
def integer? (cs : Octets) : Option Int :=
  let r := integerStart false cs
  if r.hasDigits ∧ !r.isTooLarge ∧ dropSpace r.rest = [] then some r.value else none

end Depot.Host
