import ContentVault.Digest.BlockHash

/-!
# Words of a message

Hash functions read a block as machine words, in either byte order, and most of
them end a message with its length.
-/

namespace ContentVault.Digest

/-- Groups of four bytes as words, the high byte first. -/
def bigWords32 : Bytes → List UInt32
  | a :: b :: c :: d :: rest =>
    (a.toUInt32 <<< 24 ||| b.toUInt32 <<< 16 ||| c.toUInt32 <<< 8 ||| d.toUInt32)
      :: bigWords32 rest
  | _ => []

/-- Groups of four bytes as words, the low byte first. -/
def littleWords32 : Bytes → List UInt32
  | a :: b :: c :: d :: rest =>
    (d.toUInt32 <<< 24 ||| c.toUInt32 <<< 16 ||| b.toUInt32 <<< 8 ||| a.toUInt32)
      :: littleWords32 rest
  | _ => []

def joinHalves (high low : UInt32) : UInt64 :=
  high.toUInt64 <<< 32 ||| low.toUInt64

/-- Groups of eight bytes as words, the high byte first. -/
def bigWords64 (bytes : Bytes) : List UInt64 :=
  pairUp (bigWords32 bytes)
where
  pairUp : List UInt32 → List UInt64
    | high :: low :: rest => joinHalves high low :: pairUp rest
    | _ => []

/-- Groups of eight bytes as words, the low byte first. -/
def littleWords64 (bytes : Bytes) : List UInt64 :=
  pairUp (littleWords32 bytes)
where
  pairUp : List UInt32 → List UInt64
    | low :: high :: rest => joinHalves high low :: pairUp rest
    | _ => []

/-- The low `size` bytes of a number, the high byte first. -/
def bigBytes (size n : Nat) : Bytes :=
  (List.range size).map fun i => UInt8.ofNat (n >>> (8 * (size - 1 - i)))

/-- The low `size` bytes of a number, the low byte first. -/
def littleBytes (size n : Nat) : Bytes :=
  (List.range size).map fun i => UInt8.ofNat (n >>> (8 * i))

def rotateLeft32 (word count : UInt32) : UInt32 :=
  word <<< count ||| word >>> (32 - count)

def rotateRight32 (word count : UInt32) : UInt32 :=
  word >>> count ||| word <<< (32 - count)

def rotateRight64 (word count : UInt64) : UInt64 :=
  word >>> count ||| word <<< (64 - count)

/-- What follows a message of `length` bytes so that it fills whole blocks: a
set bit, zeros, and the length in bits in a field of `fieldSize` bytes. -/
def lengthPadding (blockSize fieldSize : Nat) (field : Nat → Nat → Bytes) (length : Nat) : Bytes :=
  let short := (length + 1 + fieldSize) % blockSize
  0x80 :: List.replicate ((blockSize - short) % blockSize) 0 ++ field fieldSize (8 * length)

end ContentVault.Digest
