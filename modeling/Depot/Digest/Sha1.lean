import Depot.Digest.Sha256

/-! The hash function SHA-1 on byte strings. -/

namespace Depot.Sha1

open Sha256 (wordsOnto bigEndian padding)

structure Words where
  (a b c d e : UInt32)

def Words.initial : Words := ⟨0x67452301, 0xefcdab89, 0x98badcfe, 0x10325476, 0xc3d2e1f0⟩

def Words.add (x y : Words) : Words := ⟨x.a + y.a, x.b + y.b, x.c + y.c, x.d + y.d, x.e + y.e⟩

def rotate (x : UInt32) (n : UInt32) : UInt32 := (x <<< n) ||| (x >>> (32 - n))

def mix (round : Nat) (b c d : UInt32) : UInt32 :=
  if round < 20 then ((b &&& c) ||| (~~~b &&& d)) + 0x5a827999
  else if round < 40 then (b ^^^ c ^^^ d) + 0x6ed9eba1
  else if round < 60 then ((b &&& c) ||| (b &&& d) ||| (c &&& d)) + 0x8f1bbcdc
  else (b ^^^ c ^^^ d) + 0xca62c1d6

def Words.round (s : Words) (round : Nat) (w : UInt32) : Words :=
  ⟨rotate s.a 5 + mix round s.b s.c s.d + s.e + w, s.a, rotate s.b 30, s.c, s.d⟩

/-- Extends a schedule by `n` words; the newest word comes first. -/
def extend : Nat → List UInt32 → List UInt32
  | 0, ws => ws
  | n + 1, ws =>
    extend n
      (rotate (ws.getD 2 0 ^^^ ws.getD 7 0 ^^^ ws.getD 13 0 ^^^ ws.getD 15 0) 1 :: ws)

def compress (s : Words) (block : Bytes) : Words :=
  s.add <| ((List.range 80).zip (extend 64 (wordsOnto [] block)).reverse).foldl
    (fun s rw => s.round rw.1 rw.2) s

structure Progress where
  words : Words := .initial
  filled : Nat := 0
  block : Bytes := []

def Progress.push (p : Progress) (b : UInt8) : Progress :=
  if p.filled = 63 then ⟨compress p.words (b :: p.block).reverse, 0, []⟩
  else ⟨p.words, p.filled + 1, b :: p.block⟩

def digest (bs : Bytes) : Bytes :=
  let words := ((bs ++ padding bs.length).foldl Progress.push {}).words
  [words.a, words.b, words.c, words.d, words.e].flatMap fun w => bigEndian 4 w.toNat

end Depot.Sha1
