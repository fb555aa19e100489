import ContentVault.Digest.Words

/-!
# SHA-1

Five 32-bit words are stirred eighty times for each block of 64 bytes.  The
names of values in a direct store are digests of this function.
-/

namespace ContentVault.Digest.Sha1

/-- The chaining value, and the five variables of a round. -/
structure State where
  a : UInt32
  b : UInt32
  c : UInt32
  d : UInt32
  e : UInt32
  deriving DecidableEq, Repr

def initial : State :=
  ⟨0x67452301, 0xefcdab89, 0x98badcfe, 0x10325476, 0xc3d2e1f0⟩

def nextWord (words : Array UInt32) : UInt32 :=
  let back (distance : Nat) : UInt32 := words.getD (words.size - distance) 0
  rotateLeft32 (back 3 ^^^ back 8 ^^^ back 14 ^^^ back 16) 1

def schedule (block : Bytes) : List UInt32 :=
  ((List.range 64).foldl (fun words _ => words.push (nextWord words))
    (bigWords32 block).toArray).toList

def mix (index : Nat) (b c d : UInt32) : UInt32 :=
  if index < 20 then 0x5a827999 + ((b &&& c) ||| (~~~b &&& d))
  else if index < 40 then 0x6ed9eba1 + (b ^^^ c ^^^ d)
  else if index < 60 then 0x8f1bbcdc + ((b &&& c) ||| (b &&& d) ||| (c &&& d))
  else 0xca62c1d6 + (b ^^^ c ^^^ d)

def round (s : State) (index : Nat) (w : UInt32) : State :=
  ⟨rotateLeft32 s.a 5 + mix index s.b s.c s.d + s.e + w, s.a, rotateLeft32 s.b 30, s.c, s.d⟩

def compress (s : State) (block : Bytes) : State :=
  let t := (schedule block).zipIdx.foldl (fun s wi => round s wi.2 wi.1) s
  ⟨s.a + t.a, s.b + t.b, s.c + t.c, s.d + t.d, s.e + t.e⟩

def State.toBytes (s : State) : Bytes :=
  [s.a, s.b, s.c, s.d, s.e].flatMap fun word => bigBytes 4 word.toNat

def blockHash : BlockHash :=
  .padded 64 initial compress (lengthPadding 64 8 bigBytes) State.toBytes

end ContentVault.Digest.Sha1
