import ContentVault.Digest.Words

/-!
# MD5

Four 32-bit words are stirred sixty-four times for each block of 64 bytes, all
words with their low byte first.
-/

namespace ContentVault.Digest.Md5

/-- The chaining value, and the four variables of a round. -/
structure State where
  a : UInt32
  b : UInt32
  c : UInt32
  d : UInt32
  deriving DecidableEq, Repr

def initial : State :=
  ⟨0x67452301, 0xefcdab89, 0x98badcfe, 0x10325476⟩

/-- The first bits of the fractional parts of the absolute sines of 1 to 64. -/
def constants : List UInt32 :=
  [0xd76aa478, 0xe8c7b756, 0x242070db, 0xc1bdceee, 0xf57c0faf, 0x4787c62a, 0xa8304613,
   0xfd469501, 0x698098d8, 0x8b44f7af, 0xffff5bb1, 0x895cd7be, 0x6b901122, 0xfd987193,
   0xa679438e, 0x49b40821, 0xf61e2562, 0xc040b340, 0x265e5a51, 0xe9b6c7aa, 0xd62f105d,
   0x02441453, 0xd8a1e681, 0xe7d3fbc8, 0x21e1cde6, 0xc33707d6, 0xf4d50d87, 0x455a14ed,
   0xa9e3e905, 0xfcefa3f8, 0x676f02d9, 0x8d2a4c8a, 0xfffa3942, 0x8771f681, 0x6d9d6122,
   0xfde5380c, 0xa4beea44, 0x4bdecfa9, 0xf6bb4b60, 0xbebfbc70, 0x289b7ec6, 0xeaa127fa,
   0xd4ef3085, 0x04881d05, 0xd9d4d039, 0xe6db99e5, 0x1fa27cf8, 0xc4ac5665, 0xf4292244,
   0x432aff97, 0xab9423a7, 0xfc93a039, 0x655b59c3, 0x8f0ccc92, 0xffeff47d, 0x85845dd1,
   0x6fa87e4f, 0xfe2ce6e0, 0xa3014314, 0x4e0811a1, 0xf7537e82, 0xbd3af235, 0x2ad7d2bb,
   0xeb86d391]

/-- How far a round rotates: four amounts in turn, different in each quarter. -/
def rotation (index : Nat) : UInt32 :=
  let amounts : List UInt32 :=
    if index < 16 then [7, 12, 17, 22]
    else if index < 32 then [5, 9, 14, 20]
    else if index < 48 then [4, 11, 16, 23]
    else [6, 10, 15, 21]
  amounts.getD (index % 4) 0

/-- The word a round mixes from three variables, and the place of its message
word in the block. -/
def mix (index : Nat) (b c d : UInt32) : UInt32 × Nat :=
  if index < 16 then ((b &&& c) ||| (~~~b &&& d), index)
  else if index < 32 then ((d &&& b) ||| (~~~d &&& c), (5 * index + 1) % 16)
  else if index < 48 then (b ^^^ c ^^^ d, (3 * index + 5) % 16)
  else (c ^^^ (b ||| ~~~d), (7 * index) % 16)

def round (words : Array UInt32) (s : State) (index : Nat) (k : UInt32) : State :=
  let (mixed, place) := mix index s.b s.c s.d
  ⟨s.d, s.b + rotateLeft32 (mixed + s.a + k + words.getD place 0) (rotation index), s.b, s.c⟩

def compress (s : State) (block : Bytes) : State :=
  let words := (littleWords32 block).toArray
  let t := constants.zipIdx.foldl (fun s ki => round words s ki.2 ki.1) s
  ⟨s.a + t.a, s.b + t.b, s.c + t.c, s.d + t.d⟩

def State.toBytes (s : State) : Bytes :=
  [s.a, s.b, s.c, s.d].flatMap fun word => littleBytes 4 word.toNat

def blockHash : BlockHash :=
  .padded 64 initial compress (lengthPadding 64 8 littleBytes) State.toBytes

end ContentVault.Digest.Md5
