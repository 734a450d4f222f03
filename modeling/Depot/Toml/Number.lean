import Depot.Toml.Text
import Depot.Toml.Value

/-! Numbers, dates and times in TOML, as they are read. -/

namespace Depot.Toml

def isDigit (c : Char) : Bool := '0' ≤ c && c ≤ '9'

def isHexDigit (c : Char) : Bool := (Hex.value? c).isSome

/-- Digits, with single underscores before any of them: the digits, and the rest. -/
def moreDigits (p : Char → Bool) : List Char → List Char × List Char
  | '_' :: c :: rest =>
    if p c then (c :: (moreDigits p rest).1, (moreDigits p rest).2) else ([], '_' :: c :: rest)
  | c :: rest =>
    if p c then (c :: (moreDigits p rest).1, (moreDigits p rest).2) else ([], c :: rest)
  | [] => ([], [])

def digits? (p : Char → Bool) : List Char → Option (List Char × List Char)
  | c :: rest =>
    if p c then some (c :: (moreDigits p rest).1, (moreDigits p rest).2) else none
  | [] => none

def numeral (base : Nat) (ds : List Char) : Nat :=
  ds.foldl (fun n c => n * base + (Hex.value? c).getD 0) 0

/-- An optional sign; true for `-`. -/
def sign : List Char → Bool × List Char
  | '-' :: rest => (true, rest)
  | '+' :: rest => (false, rest)
  | rest => (false, rest)

/-- Decimal digits without a zero in front. -/
def whole? : List Char → Option (List Char × List Char)
  | '0' :: rest => some (['0'], rest)
  | cs => digits? isDigit cs

def maxInt : Nat := 9223372036854775807

def basedInteger? (base : Nat) (p : Char → Bool) (cs : List Char) : Option (Value × List Char) := do
  let (ds, rest) ← digits? p cs
  if numeral base ds > maxInt then none
  else some (.integer (numeral base ds), rest)

def integer? : List Char → Option (Value × List Char)
  | '0' :: 'x' :: cs => basedInteger? 16 isHexDigit cs
  | '0' :: 'o' :: cs => basedInteger? 8 (fun c => '0' ≤ c && c ≤ '7') cs
  | '0' :: 'b' :: cs => basedInteger? 2 (fun c => c = '0' || c = '1') cs
  | cs => do
    let (negative, cs) := sign cs
    let (ds, rest) ← whole? cs
    let n := numeral 10 ds
    if negative then if n > maxInt + 1 then none else some (.integer (-n), rest)
    else if n > maxInt then none else some (.integer n, rest)

/-- The decimal number `mantissa * 10 ^ exponent` is too large for a double: it is at least half a
unit above the largest one. -/
def overflows (mantissa : List Char) (exponent : Int) : Bool :=
  let ds := mantissa.dropWhile (· = '0')
  let size := (ds.length : Int) + exponent
  if ds = [] ∨ size < 300 then false
  else if size > 310 then true
  else
    let limit := Nat.pow 2 1024 - Nat.pow 2 970
    if exponent ≥ 0 then numeral 10 ds * Nat.pow 10 exponent.toNat ≥ limit
    else numeral 10 ds ≥ limit * Nat.pow 10 (-exponent).toNat

def exponent? : List Char → Option (Int × List Char)
  | c :: cs =>
    if c = 'e' ∨ c = 'E' then do
      let (negative, cs) := sign cs
      let (ds, rest) ← digits? isDigit cs
      some (if negative then -(numeral 10 ds) else numeral 10 ds, rest)
    else none
  | [] => none

def fraction? : List Char → Option (List Char × List Char)
  | '.' :: cs => digits? isDigit cs
  | _ => none

/-- The part of `cs` before `rest`. -/
def taken (cs rest : List Char) : List Char := cs.take (cs.length - rest.length)

def decimal? (cs : List Char) : Option (Value × List Char) := do
  let (negative, afterSign) := sign cs
  let (ds, rest) ← whole? afterSign
  let (mantissa, exponent, rest) ← match fraction? rest with
    | some (fs, rest) =>
      match exponent? rest with
      | some (e, rest) => some (ds ++ fs, e - fs.length, rest)
      | none => some (ds ++ fs, -(fs.length : Int), rest)
    | none => (exponent? rest).map fun (e, rest) => (ds, e, rest)
  if !negative && overflows mantissa exponent then none
  else some (.real (taken cs rest), rest)

/-- Infinity, or not a number. -/
def special? (cs : List Char) : Option (Value × List Char) :=
  match (sign cs).2 with
  | 'i' :: 'n' :: 'f' :: rest => some (.real (taken cs rest), rest)
  | 'n' :: 'a' :: 'n' :: rest => some (.real (taken cs rest), rest)
  | _ => none

def pair? (lo hi : Nat) : List Char → Option (Nat × List Char)
  | a :: b :: rest =>
    let n := numeral 10 [a, b]
    if isDigit a && isDigit b && lo ≤ n && n ≤ hi then some (n, rest) else none
  | _ => none

def daysIn (year month : Nat) : Nat :=
  if month = 2 then
    if year % 4 = 0 ∧ (year % 100 ≠ 0 ∨ year % 400 = 0) then 29 else 28
  else if month ∈ [4, 6, 9, 11] then 30
  else 31

def char? (c : Char) : List Char → Option (List Char)
  | d :: rest => if d = c then some rest else none
  | [] => none

def date? : List Char → Option (List Char)
  | a :: b :: c :: d :: rest =>
    if [a, b, c, d].all isDigit then do
      let (month, rest) ← pair? 1 12 (← char? '-' rest)
      let (day, rest) ← pair? 1 31 (← char? '-' rest)
      if day ≤ daysIn (numeral 10 [a, b, c, d]) month then some rest else none
    else none
  | _ => none

/-- A time of day. The sixtieth second is a leap second. -/
def time? (cs : List Char) : Option (List Char) := do
  let (_, cs) ← pair? 0 23 cs
  let (_, cs) ← pair? 0 59 (← char? ':' cs)
  let (_, cs) ← pair? 0 60 (← char? ':' cs)
  match cs with
  | '.' :: d :: rest => if isDigit d then some (rest.dropWhile isDigit) else some cs
  | _ => some cs

def offset? : List Char → Option (List Char)
  | 'Z' :: rest => some rest
  | 'z' :: rest => some rest
  | c :: rest =>
    if c = '+' ∨ c = '-' then do
      let (_, rest) ← pair? 0 23 rest
      let (_, rest) ← pair? 0 59 (← char? ':' rest)
      some rest
    else none
  | [] => none

/-- What may follow a date: a time, with or without an offset. -/
def timeAfterDate (cs : List Char) : List Char :=
  match cs with
  | c :: rest =>
    if c = 'T' ∨ c = 't' ∨ c = ' ' then
      match time? rest with
      | some rest => (offset? rest).getD rest
      | none => cs
    else cs
  | [] => cs

def moment? (cs : List Char) : Option (Value × List Char) :=
  match (date? cs).map timeAfterDate with
  | some rest => some (.moment (taken cs rest), rest)
  | none => (time? cs).map fun rest => (.moment (taken cs rest), rest)

/-- Anything that begins with a sign or a digit. -/
def number? (cs : List Char) : Option (Value × List Char) :=
  moment? cs <|> decimal? cs <|> special? cs <|> integer? cs

end Depot.Toml
