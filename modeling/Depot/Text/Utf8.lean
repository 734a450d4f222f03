/-!
Bytes as text: read as UTF-8, each as a character of its own, and in hexadecimal digits. Reading UTF-8
never fails on its own: a run of bytes becomes a list of characters with a gap for each ill-formed
piece, cut as the Unicode standard recommends (a piece is the longest start of a well-formed sequence,
or else one byte).
-/

namespace Depot

/-- File contents, file names and file-system paths. -/
abbrev Bytes := List UInt8

namespace Utf8

def encode (cs : List Char) : Bytes := cs.flatMap String.utf8EncodeChar

def ofString (s : String) : Bytes := encode s.toList

/-- What is known of a character whose bytes are still arriving. -/
inductive Pending where
  | idle
  /-- `need + 1` bytes are missing, `high` holds the bits read so far, and the next byte lies
  between `lo` and `hi`. -/
  | more (need high lo hi : Nat)

/-- Reads a byte where a character may begin. -/
def begin? (b : Nat) : List (Option Char) × Pending :=
  if b < 0x80 then ([some (Char.ofNat b)], .idle)
  else if b < 0xC2 then ([none], .idle)
  else if b < 0xE0 then ([], .more 0 (b - 0xC0) 0x80 0xBF)
  else if b < 0xF0 then
    ([], .more 1 (b - 0xE0) (if b = 0xE0 then 0xA0 else 0x80) (if b = 0xED then 0x9F else 0xBF))
  else if b < 0xF5 then
    ([], .more 2 (b - 0xF0) (if b = 0xF0 then 0x90 else 0x80) (if b = 0xF4 then 0x8F else 0xBF))
  else ([none], .idle)

/-- Reads one byte: the pieces it completes, and what is pending after it. -/
def feed : Pending → Nat → List (Option Char) × Pending
  | .idle, b => begin? b
  | .more need high lo hi, b =>
    if lo ≤ b ∧ b ≤ hi then
      match need with
      | 0 => ([some (Char.ofNat (high * 64 + (b - 0x80)))], .idle)
      | n + 1 => ([], .more n (high * 64 + (b - 0x80)) 0x80 0xBF)
    else (none :: (begin? b).1, (begin? b).2)

/-- The characters of a byte string, with `none` for each ill-formed piece. -/
def pieces : Pending → Bytes → List (Option Char)
  | .idle, [] => []
  | .more .., [] => [none]
  | p, b :: bs => (feed p b.toNat).1 ++ pieces (feed p b.toNat).2 bs

/-- The text of well-formed bytes. -/
def decode? (bs : Bytes) : Option (List Char) := (pieces .idle bs).mapM id

/-- The text of any bytes, with the replacement character for each ill-formed piece. -/
def lossy (bs : Bytes) : List Char := (pieces .idle bs).map (·.getD '\uFFFD')

def IsValid (bs : Bytes) : Prop := (decode? bs).isSome

instance (bs : Bytes) : Decidable (IsValid bs) := inferInstanceAs (Decidable (_ = true))

def toString? (bs : Bytes) : Option String := (decode? bs).map String.ofList

def toStringLossy (bs : Bytes) : String := String.ofList (lossy bs)

end Utf8

/-- Each byte is kept as the character of its number. -/
abbrev Octets := List Char

def Octets.ofBytes (bs : Bytes) : Octets := bs.map fun b => Char.ofNat b.toNat

def Octets.toBytes (cs : Octets) : Bytes := cs.map fun c => UInt8.ofNat c.toNat

def octets (s : String) : Octets := .ofBytes (Utf8.ofString s)

/-- The blanks that matter in the files of a repository. -/
def isGap (c : Char) : Bool := c = ' ' || c = '\t' || c = '\x0d' || c = '\n'

def dropGap (cs : Octets) : Octets := cs.dropWhile isGap

namespace Hex

def digit (n : Nat) : Char :=
  if n < 10 then Char.ofNat (48 + n) else Char.ofNat (87 + n)

def value? (c : Char) : Option Nat :=
  if '0' ≤ c ∧ c ≤ '9' then some (c.toNat - 48)
  else if 'a' ≤ c ∧ c ≤ 'f' then some (c.toNat - 87)
  else if 'A' ≤ c ∧ c ≤ 'F' then some (c.toNat - 55)
  else none

def encode (bs : Bytes) : List Char :=
  bs.flatMap fun b => [digit (b.toNat / 16), digit (b.toNat % 16)]

def decode? : List Char → Option Bytes
  | [] => some []
  | [_] => none
  | h :: l :: cs => do
    let high ← value? h
    let low ← value? l
    return UInt8.ofNat (high * 16 + low) :: (← decode? cs)

end Hex

end Depot
