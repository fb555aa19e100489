import ContentVault.ChunkStore

/-!
# Reading a value from chunks

A reader goes by the manifest it finds first: it loads as many chunks as are
recorded there, insists on their sizes and on the total length, and hands out
their bytes as one stream.  Chunks beyond those recorded are never read.
-/

namespace ContentVault

structure ChunkReader where
  base : String
  manifest : Manifest
  /-- The index of the chunk to be loaded next. -/
  nextIndex : UInt64
  /-- The bytes of the last chunk that have not been handed out. -/
  pending : Bytes
  /-- How many bytes have been handed out. -/
  delivered : UInt64
  deriving DecidableEq, Repr

namespace ChunkReader

/-- Opens the value under a key.  A missing, unterminated or unreadable value
fails here and not when it is read. -/
def create (base : String) (s : ChunkStore) : Except VaultError ChunkReader × ChunkStore :=
  match s.loadManifest base with
  | (.error error, s) => (.error (.backendUnavailable error), s)
  | (.ok none, s) =>
    match s.load (chunkKey base 0) with
    | (.error error, s) => (.error (.backendUnavailable error), s)
    | (.ok none, s) => (.error (.backendUnavailable (.notFound base)), s)
    | (.ok (some _), s) => (.error (.corruptChunkSequence base .unterminated), s)
  | (.ok (some manifest), s) =>
    if manifest.chunkSize = 0 then (.error (.corruptChunkSequence base .zeroChunkSize), s)
    else (.ok ⟨base, manifest, 0, [], 0⟩, s)

/-- A reader that was just opened has loaded nothing. -/
theorem eq_of_create_ok {base : String} {s s' : ChunkStore} {r : ChunkReader}
    (hcreate : create base s = (.ok r, s')) :
    ∃ manifest, r = ⟨base, manifest, 0, [], 0⟩ ∧ manifest.chunkSize ≠ 0 := by
  rw [create] at hcreate
  split at hcreate
  · cases hcreate
  · split at hcreate <;> cases hcreate
  · rename_i manifest _ _
    split at hcreate
    · cases hcreate
    · rename_i hsize
      cases hcreate
      exact ⟨manifest, rfl, hsize⟩

/-- Why a chunk of that length must not be the next one.  Only the last chunk
may be shorter than the others. -/
def lengthFault? (r : ChunkReader) (length : Nat) : Option Corruption :=
  let chunkSize := r.manifest.chunkSize.toNat
  let isLast := r.nextIndex + 1 = r.manifest.chunks
  if chunkSize < length ∨ (¬isLast ∧ length ≠ chunkSize) then
    some (.wrongChunkLength r.nextIndex length r.manifest.chunkSize)
  else none

/-- Loads the next chunk; there is none after the last. -/
def nextChunk (r : ChunkReader) (s : ChunkStore) :
    Except VaultError (Option Bytes) × ChunkStore :=
  if r.nextIndex = r.manifest.chunks then
    if r.delivered ≠ r.manifest.length then
      (.error (.corruptChunkSequence r.base
        (.wrongTotal r.manifest.chunks r.delivered r.manifest.length)), s)
    else (.ok none, s)
  else
    match s.load (chunkKey r.base r.nextIndex) with
    | (.error error, s) => (.error (.backendUnavailable error), s)
    | (.ok none, s) =>
      (.error (.corruptChunkSequence r.base (.missingChunk r.nextIndex r.manifest.chunks)), s)
    | (.ok (some chunk), s) =>
      match r.lengthFault? chunk.length with
      | some fault => (.error (.corruptChunkSequence r.base fault), s)
      | none => (.ok (some chunk), s)

def remaining (r : ChunkReader) : Nat :=
  (r.manifest.chunks - r.nextIndex).toNat

/-- The reader once the next chunk is loaded. -/
def take (r : ChunkReader) (chunk : Bytes) : ChunkReader :=
  { r with nextIndex := r.nextIndex + 1, pending := chunk }

theorem nextIndex_ne_of_nextChunk {r : ChunkReader} {s s' : ChunkStore} {chunk : Bytes}
    (hnext : r.nextChunk s = (.ok (some chunk), s')) : r.nextIndex ≠ r.manifest.chunks := by
  intro hlast
  rw [nextChunk] at hnext
  rw [if_pos hlast] at hnext
  split at hnext <;> cases hnext

theorem remaining_take {r : ChunkReader} (chunk : Bytes)
    (hindex : r.nextIndex ≠ r.manifest.chunks) :
    (r.take chunk).remaining + 1 = r.remaining := by
  have hne : r.nextIndex.toNat ≠ r.manifest.chunks.toNat :=
    fun heq => hindex (UInt64.toNat_inj.1 heq)
  have hnext := r.nextIndex.toNat_lt
  have hchunks := r.manifest.chunks.toNat_lt
  simp only [remaining, take, UInt64.toNat_sub, UInt64.toNat_add, UInt64.toNat_one]
  omega

theorem lengthFault?_of_nextChunk {r : ChunkReader} {s s' : ChunkStore} {chunk : Bytes}
    (hnext : r.nextChunk s = (.ok (some chunk), s')) : r.lengthFault? chunk.length = none := by
  rw [nextChunk] at hnext
  split at hnext
  · split at hnext <;> cases hnext
  split at hnext
  · cases hnext
  · cases hnext
  · split at hnext
    · cases hnext
    · rename_i hfault
      cases hnext
      exact hfault

theorem length_le_of_nextChunk {r : ChunkReader} {s s' : ChunkStore} {chunk : Bytes}
    (hnext : r.nextChunk s = (.ok (some chunk), s')) :
    chunk.length ≤ r.manifest.chunkSize.toNat := by
  have hfault := lengthFault?_of_nextChunk hnext
  unfold lengthFault? at hfault
  dsimp only at hfault
  split at hfault
  · cases hfault
  · omega

/-- A chunk is refused for a reason of the store or of the sequence, never for one
that a stream would pass on bare. -/
theorem isInterrupted_of_nextChunk {r : ChunkReader} {s s' : ChunkStore} {error : VaultError}
    (hnext : r.nextChunk s = (.error error, s')) : error.toStream.isInterrupted = false := by
  rw [nextChunk] at hnext
  split at hnext
  · split at hnext <;> cases hnext
    rfl
  split at hnext
  · cases hnext
    rfl
  · cases hnext
    rfl
  · split at hnext <;> cases hnext
    rfl

set_option linter.unusedVariables false in
/-- Loads chunks until there is a byte to hand out or the value ends. -/
def refill (r : ChunkReader) (s : ChunkStore) :
    Except VaultError Unit × ChunkReader × ChunkStore :=
  if r.pending ≠ [] then (.ok (), r, s)
  else
    match hnext : r.nextChunk s with
    | (.error error, s) => (.error error, r, s)
    | (.ok none, s) => (.ok (), r, s)
    | (.ok (some chunk), s) => (r.take chunk).refill s
termination_by r.remaining
decreasing_by
  have := remaining_take (r := r) chunk (nextIndex_ne_of_nextChunk hnext)
  omega

/-- Hands out at most `size` bytes; none, for a positive size, once the value is
at its end. -/
def read (r : ChunkReader) (size : Nat) (s : ChunkStore) :
    Except IoError Bytes × ChunkReader × ChunkStore :=
  if size = 0 then (.ok [], r, s)
  else
    match r.refill s with
    | (.error error, r, s) => (.error error.toStream, r, s)
    | (.ok _, r, s) =>
      let bytes := r.pending.take size
      (.ok bytes,
        { r with
          pending := r.pending.drop size
          delivered := r.delivered + UInt64.ofNat bytes.length },
        s)

/-- A bound on the bytes that can still be handed out. -/
def weight (r : ChunkReader) : Nat :=
  r.remaining * (r.manifest.chunkSize.toNat + 1) + r.pending.length

theorem weight_take {r : ChunkReader} {chunk : Bytes}
    (hindex : r.nextIndex ≠ r.manifest.chunks)
    (hlength : chunk.length ≤ r.manifest.chunkSize.toNat) :
    (r.take chunk).weight < r.weight := by
  have hremaining := remaining_take (r := r) chunk hindex
  have hsize : (r.take chunk).manifest.chunkSize = r.manifest.chunkSize := rfl
  have hpending : (r.take chunk).pending = chunk := rfl
  unfold weight
  rw [← hremaining, hsize, hpending, Nat.add_one_mul]
  omega

theorem weight_refill (r : ChunkReader) (s : ChunkStore) :
    (r.refill s).2.1.weight ≤ r.weight := by
  fun_induction refill r s with
  | case1 => exact Nat.le_refl _
  | case2 => exact Nat.le_refl _
  | case3 => exact Nat.le_refl _
  | case4 r s _ s' chunk hnext ih =>
    exact Nat.le_trans ih (Nat.le_of_lt
      (weight_take (nextIndex_ne_of_nextChunk hnext) (length_le_of_nextChunk hnext)))

theorem isInterrupted_of_refill {r r' : ChunkReader} {s s' : ChunkStore} {error : VaultError}
    (hrefill : r.refill s = (.error error, r', s')) : error.toStream.isInterrupted = false := by
  fun_induction refill r s with
  | case1 => cases hrefill
  | case2 r s _ s'' error' hnext =>
    cases hrefill
    exact isInterrupted_of_nextChunk hnext
  | case3 => cases hrefill
  | case4 _ _ _ _ _ _ ih => exact ih hrefill

/-- Every read that hands out bytes lessens the weight. -/
theorem weight_read {r r' : ChunkReader} {size : Nat} {s s' : ChunkStore} {bytes : Bytes}
    (hread : r.read size s = (.ok bytes, r', s')) (hbytes : bytes ≠ []) :
    r'.weight < r.weight := by
  have hrefill := weight_refill r s
  rw [read] at hread
  split at hread
  · cases hread
    exact absurd rfl hbytes
  split at hread
  · cases hread
  · rename_i r₁ s₁ heq
    rw [heq] at hrefill
    cases hread
    have htake : 0 < (r₁.pending.take size).length := List.length_pos_iff.2 hbytes
    rw [List.length_take] at htake
    simp only [weight, remaining, List.length_drop] at hrefill ⊢
    omega

/-- A read is never merely interrupted. -/
theorem isInterrupted_of_read {r r' : ChunkReader} {size : Nat} {s s' : ChunkStore}
    {error : IoError} (hread : r.read size s = (.error error, r', s')) :
    error.isInterrupted = false := by
  rw [read] at hread
  split at hread
  · cases hread
  split at hread
  · cases hread
    exact isInterrupted_of_refill (by assumption)
  · cases hread

end ChunkReader

end ContentVault
