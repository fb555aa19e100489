import ContentVault.Bytes

/-!
# Hashes computed block by block

A block hash folds the blocks of a message into a state and closes the state
with what is left.  `hash` does so for a whole message at once; an accumulator
holds the state between pieces of a message.
-/

namespace ContentVault.Digest

/-- Takes the first `count` blocks of the bytes into the state, in order. -/
def foldBlocks {State : Type} (blockSize : Nat) (compress : State → Bytes → State) :
    Nat → State → Bytes → State
  | 0, state, _ => state
  | count + 1, state, bytes =>
    foldBlocks blockSize compress count (compress state (bytes.take blockSize))
      (bytes.drop blockSize)

/-- A hash function that works through its message in blocks. -/
structure BlockHash where
  /-- What is carried from block to block. -/
  State : Type
  /-- Bytes in a block. -/
  blockSize : Nat
  /-- Whether a full block is compressed only once more bytes follow it. -/
  waits : Bool
  initial : State
  /-- Takes in one full block. -/
  compress : State → Bytes → State
  /-- The digest, from the state, the length of the message and its bytes not
  yet compressed. -/
  close : State → Nat → Bytes → Bytes

namespace BlockHash

/-- The number of blocks compressed while a message of that length is read. -/
def ready (H : BlockHash) (length : Nat) : Nat :=
  if H.waits then (length - 1) / H.blockSize else length / H.blockSize

def absorb (H : BlockHash) (count : Nat) (state : H.State) (bytes : Bytes) : H.State :=
  foldBlocks H.blockSize H.compress count state bytes

def hash (H : BlockHash) (message : Bytes) : Bytes :=
  let count := H.ready message.length
  H.close (H.absorb count H.initial message) message.length
    (message.drop (count * H.blockSize))

/-- A hash function whose message is continued by a padding that fills its last
block; the digest is a view of the final state. -/
def padded {State : Type} (blockSize : Nat) (initial : State)
    (compress : State → Bytes → State) (padding : Nat → Bytes) (output : State → Bytes) :
    BlockHash where
  State := State
  blockSize := blockSize
  waits := false
  initial := initial
  compress := compress
  close state length pending :=
    let tail := pending ++ padding length
    output (foldBlocks blockSize compress (tail.length / blockSize) state tail)

end BlockHash

/-- A digest in progress: the state after the compressed blocks, the bytes that
wait for their block to fill, and the length of everything fed so far. -/
structure Accumulator (H : BlockHash) where
  state : H.State
  pending : Bytes
  length : Nat

namespace Accumulator

variable {H : BlockHash}

def start (H : BlockHash) : Accumulator H :=
  ⟨H.initial, [], 0⟩

def update (acc : Accumulator H) (data : Bytes) : Accumulator H :=
  let bytes := acc.pending ++ data
  let count := H.ready bytes.length
  { state := H.absorb count acc.state bytes
    pending := bytes.drop (count * H.blockSize)
    length := acc.length + data.length }

def finalize (acc : Accumulator H) : Bytes :=
  H.close acc.state acc.length acc.pending

end Accumulator

end ContentVault.Digest
