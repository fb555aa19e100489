import ContentVault.Digest.Words

/-!
# BLAKE2b with a digest of 64 bytes

Blocks of 128 bytes are mixed into eight 64-bit words together with the number
of bytes read so far.  The last block, filled with zeros, is marked as such, so
a full block waits until it is known whether more bytes follow.
-/

namespace ContentVault.Digest.Blake2b

/-- The chaining words and the number of bytes in the compressed blocks. -/
structure State where
  chain : Vector UInt64 8
  count : Nat
  deriving DecidableEq, Repr

/-- The first bits of the fractional parts of the square roots of the first
eight primes. -/
def seeds : Vector UInt64 8 :=
  #v[0x6a09e667f3bcc908, 0xbb67ae8584caa73b, 0x3c6ef372fe94f82b,
    0xa54ff53a5f1d36f1, 0x510e527fade682d1, 0x9b05688c2b3e6c1f,
    0x1f83d9abfb41bd6b, 0x5be0cd19137e2179]

/-- The seeds, marked with the digest length and with one leaf and one level. -/
def initial : State :=
  ⟨seeds.set 0 (seeds[0] ^^^ 0x01010040), 0⟩

/-- The order in which each of the twelve rounds takes the message words. -/
def orders : List (Vector (Fin 16) 16) :=
  [#v[0, 1, 2, 3, 4, 5, 6, 7, 8, 9, 10, 11, 12, 13, 14, 15],
   #v[14, 10, 4, 8, 9, 15, 13, 6, 1, 12, 0, 2, 11, 7, 5, 3],
   #v[11, 8, 12, 0, 5, 2, 15, 13, 10, 14, 3, 6, 7, 1, 9, 4],
   #v[7, 9, 3, 1, 13, 12, 11, 14, 2, 6, 5, 10, 4, 0, 15, 8],
   #v[9, 0, 5, 7, 2, 4, 10, 15, 14, 1, 11, 12, 6, 8, 3, 13],
   #v[2, 12, 6, 10, 0, 11, 8, 3, 4, 13, 7, 5, 15, 14, 1, 9],
   #v[12, 5, 1, 15, 14, 13, 4, 10, 0, 7, 6, 3, 9, 2, 8, 11],
   #v[13, 11, 7, 14, 12, 1, 3, 9, 5, 0, 15, 4, 8, 6, 2, 10],
   #v[6, 15, 14, 9, 11, 3, 0, 8, 12, 2, 13, 7, 1, 4, 10, 5],
   #v[10, 2, 8, 4, 7, 6, 1, 5, 15, 11, 9, 14, 3, 12, 13, 0],
   #v[0, 1, 2, 3, 4, 5, 6, 7, 8, 9, 10, 11, 12, 13, 14, 15],
   #v[14, 10, 4, 8, 9, 15, 13, 6, 1, 12, 0, 2, 11, 7, 5, 3]]

/-- Mixes two message words into four of the working words. -/
def stir (v : Vector UInt64 16) (a b c d : Fin 16) (x y : UInt64) : Vector UInt64 16 :=
  let va := v[a] + v[b] + x
  let vd := rotateRight64 (v[d] ^^^ va) 32
  let vc := v[c] + vd
  let vb := rotateRight64 (v[b] ^^^ vc) 24
  let va := va + vb + y
  let vd := rotateRight64 (vd ^^^ va) 16
  let vc := vc + vd
  let vb := rotateRight64 (vb ^^^ vc) 63
  (((v.set a va).set b vb).set c vc).set d vd

/-- One round: the four columns, then the four diagonals. -/
def round (message : Vector UInt64 16) (v : Vector UInt64 16) (order : Vector (Fin 16) 16) :
    Vector UInt64 16 :=
  let word (i : Fin 16) : UInt64 := message[order[i]]
  let v := stir v 0 4 8 12 (word 0) (word 1)
  let v := stir v 1 5 9 13 (word 2) (word 3)
  let v := stir v 2 6 10 14 (word 4) (word 5)
  let v := stir v 3 7 11 15 (word 6) (word 7)
  let v := stir v 0 5 10 15 (word 8) (word 9)
  let v := stir v 1 6 11 12 (word 10) (word 11)
  let v := stir v 2 7 8 13 (word 12) (word 13)
  stir v 3 4 9 14 (word 14) (word 15)

/-- Takes in a block of 128 bytes, of which `size` belong to the message. -/
def take (s : State) (block : Bytes) (size : Nat) (last : Bool) : State :=
  let words := (littleWords64 block).toArray
  let message : Vector UInt64 16 := Vector.ofFn fun i => words.getD i 0
  let count := s.count + size
  let v : Vector UInt64 16 := (s.chain ++ seeds).cast rfl
  let v := v.set 12 (v[12] ^^^ UInt64.ofNat count)
  let v := v.set 13 (v[13] ^^^ UInt64.ofNat (count >>> 64))
  let v := if last then v.set 14 (~~~v[14]) else v
  let v := orders.foldl (round message) v
  ⟨Vector.ofFn fun i => s.chain[i] ^^^ v[i.val] ^^^ v[i.val + 8], count⟩

def blockHash : BlockHash where
  State := State
  blockSize := 128
  waits := true
  initial := initial
  compress state block := take state block 128 false
  close state _ pending :=
    let final := take state (pending ++ List.replicate (128 - pending.length) 0) pending.length true
    final.chain.toList.flatMap fun word => littleBytes 8 word.toNat

end ContentVault.Digest.Blake2b
