import Depot.Digest.Sha256

/-! The hash function MD5 on byte strings. -/

namespace Depot.Md5

structure Words where
  (a b c d : UInt32)

def Words.initial : Words := ⟨0x67452301, 0xefcdab89, 0x98badcfe, 0x10325476⟩

def Words.add (x y : Words) : Words := ⟨x.a + y.a, x.b + y.b, x.c + y.c, x.d + y.d⟩

def rotate (x : UInt32) (n : Nat) : UInt32 := (x <<< n.toUInt32) ||| (x >>> (32 - n).toUInt32)

/-- The whole parts of the absolute sines of the numbers of the rounds, times 2 to the power of 32. -/
def sines : List UInt32 :=
  [0xd76aa478, 0xe8c7b756, 0x242070db, 0xc1bdceee, 0xf57c0faf, 0x4787c62a, 0xa8304613, 0xfd469501,
    0x698098d8, 0x8b44f7af, 0xffff5bb1, 0x895cd7be, 0x6b901122, 0xfd987193, 0xa679438e, 0x49b40821,
    0xf61e2562, 0xc040b340, 0x265e5a51, 0xe9b6c7aa, 0xd62f105d, 0x02441453, 0xd8a1e681, 0xe7d3fbc8,
    0x21e1cde6, 0xc33707d6, 0xf4d50d87, 0x455a14ed, 0xa9e3e905, 0xfcefa3f8, 0x676f02d9, 0x8d2a4c8a,
    0xfffa3942, 0x8771f681, 0x6d9d6122, 0xfde5380c, 0xa4beea44, 0x4bdecfa9, 0xf6bb4b60, 0xbebfbc70,
    0x289b7ec6, 0xeaa127fa, 0xd4ef3085, 0x04881d05, 0xd9d4d039, 0xe6db99e5, 0x1fa27cf8, 0xc4ac5665,
    0xf4292244, 0x432aff97, 0xab9423a7, 0xfc93a039, 0x655b59c3, 0x8f0ccc92, 0xffeff47d, 0x85845dd1,
    0x6fa87e4f, 0xfe2ce6e0, 0xa3014314, 0x4e0811a1, 0xf7537e82, 0xbd3af235, 0x2ad7d2bb, 0xeb86d391]

/-- The mixture of three words in a round, the word of the block that it takes, and how far it
rotates. -/
def mix (round : Nat) (b c d : UInt32) : UInt32 × Nat × Nat :=
  if round < 16 then ((b &&& c) ||| (~~~b &&& d), round, [7, 12, 17, 22].getD (round % 4) 7)
  else if round < 32 then
    ((d &&& b) ||| (~~~d &&& c), (5 * round + 1) % 16, [5, 9, 14, 20].getD (round % 4) 5)
  else if round < 48 then (b ^^^ c ^^^ d, (3 * round + 5) % 16, [4, 11, 16, 23].getD (round % 4) 4)
  else (c ^^^ (b ||| ~~~d), 7 * round % 16, [6, 10, 15, 21].getD (round % 4) 6)

def Words.round (block : Array UInt32) (s : Words) (round : Nat) (sine : UInt32) : Words :=
  let (mixed, place, turn) := mix round s.b s.c s.d
  let sum := s.a + mixed + sine + block.getD place 0
  ⟨s.d, s.b + rotate sum turn, s.b, s.c⟩

/-- The words of a block, the lowest byte of each first. -/
def wordsOf : Bytes → List UInt32
  | a :: b :: c :: d :: rest =>
    (a.toUInt32 ||| (b.toUInt32 <<< 8) ||| (c.toUInt32 <<< 16) ||| (d.toUInt32 <<< 24)) :: wordsOf rest
  | _ => []

def compress (s : Words) (block : Bytes) : Words :=
  let words := (wordsOf block).toArray
  s.add <| (sines.zipIdx).foldl (fun s (sine, round) => s.round words round sine) s

/-- A hash in progress: the bytes of the block being filled, newest first, and their number. -/
structure Progress where
  words : Words := .initial
  filled : Nat := 0
  block : Bytes := []

def Progress.push (p : Progress) (b : UInt8) : Progress :=
  if p.filled = 63 then ⟨compress p.words (b :: p.block).reverse, 0, []⟩
  else ⟨p.words, p.filled + 1, b :: p.block⟩

def littleEndian (count n : Nat) : Bytes := (Sha256.bigEndian count n).reverse

/-- What comes after a text of a length: a bit, zeros, and the length in bits. -/
def padding (length : Nat) : Bytes :=
  0x80 :: List.replicate ((119 - length % 64) % 64) 0 ++ littleEndian 8 (8 * length)

def digest (bs : Bytes) : Bytes :=
  let words := ((bs ++ padding bs.length).foldl Progress.push {}).words
  [words.a, words.b, words.c, words.d].flatMap fun w => littleEndian 4 w.toNat

end Depot.Md5
