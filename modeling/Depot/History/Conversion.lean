import Depot.History.Attributes
import Depot.History.Objects

/-!
What becomes of the data of a file when it is checked out: keywords are filled in, line ends and the
encoding are changed, as the attributes of the file ask for it.
-/

namespace Depot.Conversion

open Attributes (Setting)

/-- Which line ends a checked-out file gets. -/
inductive LineEnds where
  | asStored
  /-- A carriage return before each line feed. -/
  | windows
  /-- The same, but only for data that looks like text and has no carriage returns. -/
  | windowsIfText
  /-- As stored, but data that looks like text would be changed when it is stored. -/
  | asStoredIfText
  deriving DecidableEq, Repr

structure Wishes where
  lineEnds : LineEnds := .asStored
  hasKeyword : Bool := false
  encoding : Option Octets := none
  deriving DecidableEq, Repr

inductive TextWish where
  | text | binary | auto | unknown
  deriving DecidableEq, Repr

def textWish : Option Setting → TextWish
  | some .set => .text
  | some .unset => .binary
  | some (.value v) =>
    if v = octets "input" then .text else if v = octets "auto" then .auto else .unknown
  | _ => .unknown

/-- The wishes that attributes express; nothing if the encoding is no name. -/
def wishes? (known : Attributes.Settings) : Option Wishes :=
  let look (name : String) := assoc? (octets name) known
  let wish := match textWish (look "text") with
    | .unknown => textWish (look "crlf")
    | wish => wish
  let hasEol (v : String) := look "eol" = some (.value (octets v))
  let lineEnds := match wish with
    | .binary => LineEnds.asStored
    | .auto => if hasEol "crlf" then .windowsIfText else if hasEol "lf" then .asStored else .asStoredIfText
    | _ => if hasEol "crlf" then .windows else .asStored
  let hasKeyword := look "ident" = some .set
  match look "working-tree-encoding" with
  | some .set => none
  | some (.value v) =>
    let isDefault := [octets "utf-8", octets "utf8"].contains (v.map Char.toLower)
    some ⟨lineEnds, hasKeyword, if v = [] ∨ isDefault then none else some v⟩
  | _ => some ⟨lineEnds, hasKeyword, none⟩

structure Tally where
  (nul loneReturn loneFeed pairs printable other : Nat)

def Tally.count : Bytes → Tally
  | [] => ⟨0, 0, 0, 0, 0, 0⟩
  | 0x0D :: 0x0A :: bs =>
    let t := count bs
    { t with pairs := t.pairs + 1 }
  | b :: bs =>
    let t := count bs
    if b = 0x0D then { t with loneReturn := t.loneReturn + 1 }
    else if b = 0x0A then { t with loneFeed := t.loneFeed + 1 }
    else if b = 0 then { t with nul := t.nul + 1, other := t.other + 1 }
    else if b = 0x7F ∨ (b < 0x20 ∧ b ∉ [0x08, 0x09, 0x1B, 0x0C]) then
      { t with other := t.other + 1 }
    else { t with printable := t.printable + 1 }

/-- Data with a zero byte, a lone carriage return, or more than one odd byte among 128. An end mark
at the very end is not odd. -/
def isBinary (bs : Bytes) : Bool :=
  let t := Tally.count bs
  let other := if bs.getLast? = some 0x1A then t.other - 1 else t.other
  t.loneReturn ≠ 0 || t.nul ≠ 0 || t.printable / 128 < other

/-- Puts a carriage return before each line feed that has none. -/
def addReturns : Bytes → Bytes
  | [] => []
  | 0x0D :: 0x0A :: bs => 0x0D :: 0x0A :: addReturns bs
  | b :: bs => if b = 0x0A then 0x0D :: 0x0A :: addReturns bs else b :: addReturns bs

def convertLineEnds (ends : LineEnds) (bs : Bytes) : Bytes :=
  match ends with
  | .windows => addReturns bs
  | .windowsIfText =>
    let t := Tally.count bs
    if t.loneReturn ≠ 0 ∨ t.pairs ≠ 0 ∨ isBinary bs then bs else addReturns bs
  | .asStored | .asStoredIfText => bs

/-- The name that stored data has. -/
def storedName (bs : Bytes) : Octets := Objects.nameOf (Objects.digest "blob" bs)

def keyword : Bytes := Utf8.ofString "$Id"

/-- What stands between the keyword and the rest of the text. -/
def keywordValue (bs : Bytes) : Bytes := Utf8.ofString ": " ++ Octets.toBytes (storedName bs) ++ Utf8.ofString " $"

/-- A keyword already filled in by another system: it has a blank that does not end it. -/
def isForeign (text : Bytes) : Bool :=
  let start := Utf8.ofString "$Id: "
  start.isPrefixOf text && hasInnerBlank ((text.drop start.length).takeWhile (· ≠ 0))
where
  hasInnerBlank : Bytes → Bool
    | [] => false
    | b :: bs =>
      (b ∈ [0x20, 0x09, 0x0A, 0x0D] && bs.head? ≠ some 0x24) || hasInnerBlank bs

/-- How much of a keyword has been read. -/
inductive Scan where
  /-- The first `n` bytes of the keyword, and the zero byte after it if `n` is four. -/
  | start (n : Nat)
  /-- A keyword with a value, newest byte first. -/
  | value (text : Bytes)

/-- Fills in keywords byte by byte. -/
def fillScan (filled : Bytes) : Scan → Bytes → Bytes
  | .start n, [] => (keyword ++ [0]).take n
  | .value text, [] => text.reverse
  | .start n, b :: bs =>
    if n ≤ 3 ∧ (keyword ++ [0])[n]? = some b then fillScan filled (.start (n + 1)) bs
    else if n = 3 ∧ b = 0x3A then fillScan filled (.value (b :: keyword.reverse)) bs
    else if n = 3 ∧ b = 0x24 then keyword ++ filled ++ fillScan filled (.start 0) bs
    else (keyword ++ [0]).take n ++ b :: fillScan filled (.start 0) bs
  | .value text, b :: bs =>
    if b = 0x0A then (b :: text).reverse ++ fillScan filled (.start 0) bs
    else if b = 0x24 then
      (if isForeign (b :: text).reverse then (b :: text).reverse else keyword ++ filled) ++
        fillScan filled (.start 0) bs
    else fillScan filled (.value (b :: text)) bs

/-- Fills in keywords of data that is held as a whole. -/
def fillWhole (filled : Bytes) : Nat → Bytes → Bytes
  | 0, bs => bs
  | _, [] => []
  | fuel + 1, b :: bs =>
    if b ≠ 0x24 then b :: fillWhole filled fuel bs
    else match bs with
      | 0x49 :: 0x64 :: 0x24 :: rest => keyword ++ filled ++ fillWhole filled fuel rest
      | 0x49 :: 0x64 :: 0x3A :: rest =>
        let inner := rest.takeWhile (· ≠ 0x24)
        match rest.drop inner.length with
        | [] => b :: bs
        | _ :: after =>
          let early := (inner.drop 1).takeWhile (· ≠ 0x20)
          if 0x0A ∈ inner ∨ early.length + 2 < inner.length then b :: fillWhole filled fuel bs
          else keyword ++ filled ++ fillWhole filled fuel after
      | _ => b :: fillWhole filled fuel bs

/-- Data whose look decides about it, or that is encoded anew, is held as a whole. -/
def isHeldWhole (w : Wishes) : Bool :=
  w.encoding.isSome || w.lineEnds = .windowsIfText || w.lineEnds = .asStoredIfText

def fillKeywords (w : Wishes) (bs : Bytes) : Bytes :=
  if !w.hasKeyword then bs
  else if isHeldWhole w then fillWhole (keywordValue bs) (bs.length + 1) bs
  else fillScan (keywordValue bs) (.start 0) bs

/-- The low `width` bytes of a number, the lowest first. -/
def lowFirst : Nat → Nat → Bytes
  | 0, _ => []
  | width + 1, n => UInt8.ofNat n :: lowFirst width (n / 256)

/-- The units of a character in UTF-16. -/
def units16 (c : Char) : List Nat :=
  if c.toNat < 0x10000 then [c.toNat]
  else [0xD800 + (c.toNat - 0x10000) / 0x400, 0xDC00 + (c.toNat - 0x10000) % 0x400]

/-- The bytes of a text in an encoding; nothing if the encoding is unknown or lacks a character. -/
def encode? (encoding : Octets) (cs : List Char) : Option Bytes :=
  let low16 := cs.flatMap fun c => (units16 c).flatMap (lowFirst 2)
  let high16 := cs.flatMap fun c => (units16 c).flatMap fun u => (lowFirst 2 u).reverse
  let low32 := cs.flatMap fun c => lowFirst 4 c.toNat
  let narrow (limit : Nat) := cs.mapM fun c =>
    if c.toNat < limit then some (UInt8.ofNat c.toNat) else none
  match String.ofList (encoding.map Char.toUpper) with
  | "UTF-16" | "UTF16" => some (0xFF :: 0xFE :: low16)
  | "UTF-16LE-BOM" | "UTF16LE-BOM" => some (0xFF :: 0xFE :: low16)
  | "UTF-16BE-BOM" | "UTF16BE-BOM" => some (0xFE :: 0xFF :: high16)
  | "UTF-16LE" | "UTF16LE" => some low16
  | "UTF-16BE" | "UTF16BE" => some high16
  | "UTF-32" | "UTF32" => some (0xFF :: 0xFE :: 0 :: 0 :: low32)
  | "UTF-32LE" | "UTF32LE" => some low32
  | "UTF-32BE" | "UTF32BE" => some (cs.flatMap fun c => (lowFirst 4 c.toNat).reverse)
  | "ISO-8859-1" | "ISO8859-1" | "ISO_8859-1" | "LATIN1" | "LATIN-1" | "L1" => narrow 256
  | "ASCII" | "US-ASCII" => narrow 128
  | _ => none

/-- Data that cannot be encoded stays as it is. -/
def encodeData (encoding : Option Octets) (bs : Bytes) : Bytes :=
  match encoding with
  | some name => if bs = [] then bs else (((Utf8.decode? bs).bind (encode? name)).getD bs)
  | none => bs

def apply (w : Wishes) (bs : Bytes) : Bytes :=
  encodeData w.encoding (convertLineEnds w.lineEnds (fillKeywords w bs))

end Depot.Conversion
