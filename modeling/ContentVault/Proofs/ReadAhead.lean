import ContentVault.ChunkReader
import ContentVault.Proofs.StoreCalls

/-!
# What a reader will hand out

The bytes ahead of a reader are those it has pending and those of all chunks to come.
A read of any size takes a piece off their front and leaves the rest ahead, so
the sizes of the reads decide where the stream is cut and nothing else.
-/

namespace ContentVault

open ChunkStore (Calls)

namespace ChunkReader

def spend (r : ChunkReader) : ChunkReader :=
  { r with pending := [], delivered := r.delivered + UInt64.ofNat r.pending.length }

@[simp]
theorem remaining_spend (r : ChunkReader) : r.spend.remaining = r.remaining := rfl

theorem spend_of_pending_nil {r : ChunkReader} (hpending : r.pending = []) : r.spend = r := by
  obtain ⟨base, manifest, nextIndex, pending, delivered⟩ := r
  subst hpending
  simp [spend]

set_option linter.unusedVariables false in
/-- The bytes of all chunks that are still to be loaded, and what goes wrong behind
them. -/
def beyond (r : ChunkReader) (s : ChunkStore) : Bytes × Option VaultError :=
  match hnext : r.nextChunk s with
  | (.error error, _) => ([], some error)
  | (.ok none, _) => ([], none)
  | (.ok (some chunk), s') =>
    let rest := (r.take chunk).spend.beyond s'
    (chunk ++ rest.1, rest.2)
termination_by r.remaining
decreasing_by
  have := remaining_take (r := r) chunk (nextIndex_ne_of_nextChunk hnext)
  simp only [remaining_spend]
  omega

/-- All bytes that the reader will hand out, and what goes wrong behind them. -/
def ahead (r : ChunkReader) (s : ChunkStore) : Bytes × Option VaultError :=
  (r.pending ++ (r.spend.beyond s).1, (r.spend.beyond s).2)

/-- The reader is at the end, or the value is corrupt, or the store refuses the load of the
next chunk, or there is one more chunk. -/
theorem nextChunk_cases (r : ChunkReader) (s : ChunkStore) :
    r.nextChunk s = (.ok none, s) ∨
    (∃ error t, r.nextChunk s = (.error error, t) ∧ Calls (Call.Looks r.base) s t ∧
      ((∃ source, error = .backendUnavailable source) ∨
        ∃ corruption, error = .corruptChunkSequence r.base corruption)) ∨
    (∃ chunk t, r.nextChunk s = (.ok (some chunk), t) ∧ Calls (Call.Looks r.base) s t) := by
  have hload : Calls (Call.Looks r.base) s (s.after (.load (chunkKey r.base r.nextIndex))) :=
    Calls.single ⟨⟨_, rfl⟩, .chunk r.base r.nextIndex⟩
  rw [nextChunk, ChunkStore.load_eq]
  by_cases hend : r.nextIndex = r.manifest.chunks
  · rw [if_pos hend]
    by_cases htotal : r.delivered ≠ r.manifest.length
    · rw [if_pos htotal]
      exact .inr (.inl ⟨_, s, rfl, Calls.refl s, .inr ⟨_, rfl⟩⟩)
    · rw [if_neg htotal]
      exact .inl rfl
  · rw [if_neg hend]
    cases s.refusal? (.load (chunkKey r.base r.nextIndex)) with
    | some error => exact .inr (.inl ⟨_, _, rfl, hload, .inl ⟨error, rfl⟩⟩)
    | none =>
      cases s.contents[chunkKey r.base r.nextIndex]? with
      | none => exact .inr (.inl ⟨_, _, rfl, hload, .inr ⟨_, rfl⟩⟩)
      | some chunk =>
        cases hfault : r.lengthFault? chunk.length with
        | some fault =>
          simp only [hfault]
          exact .inr (.inl ⟨_, _, rfl, hload, .inr ⟨fault, rfl⟩⟩)
        | none =>
          simp only [hfault]
          exact .inr (.inr ⟨chunk, _, rfl, hload⟩)

section Beyond

variable {r r' : ChunkReader} {s s' : ChunkStore} {chunk : Bytes} {error : VaultError} {size : Nat}

theorem beyond_of_error (hnext : r.nextChunk s = (.error error, s')) :
    r.beyond s = ([], some error) := by
  rw [beyond]
  split <;> simp_all

theorem beyond_of_end (hnext : r.nextChunk s = (.ok none, s')) : r.beyond s = ([], none) := by
  rw [beyond]
  split <;> simp_all

theorem beyond_of_chunk (hnext : r.nextChunk s = (.ok (some chunk), s')) :
    r.beyond s = (r.take chunk).ahead s' := by
  rw [beyond]
  split <;> simp_all [ahead, take]

theorem ahead_of_pending_nil (hpending : r.pending = []) (s : ChunkStore) :
    r.ahead s = r.beyond s := by
  rw [ahead, spend_of_pending_nil hpending, hpending]
  rfl

/-- At the end of the value no call is made. -/
theorem eq_of_nextChunk_end (hnext : r.nextChunk s = (.ok none, s')) : s' = s := by
  rcases nextChunk_cases r s with heq | ⟨error, t, heq, -⟩ | ⟨chunk, t, heq, -⟩ <;>
    rw [hnext] at heq <;> cases heq
  rfl

/-- Refilling fails exactly if there is no byte ahead but an error. -/
theorem ahead_of_refill_error (hrefill : r.refill s = (.error error, r', s')) :
    r.ahead s = ([], some error) := by
  fun_induction refill r s with
  | case1 => cases hrefill
  | case2 r s hpending s₁ error₁ hnext =>
    cases hrefill
    rw [ahead_of_pending_nil (Decidable.not_not.1 hpending), beyond_of_error hnext]
  | case3 => cases hrefill
  | case4 r s hpending s₁ chunk hnext ih =>
    rw [ahead_of_pending_nil (Decidable.not_not.1 hpending), beyond_of_chunk hnext, ih hrefill]

/-- Refilling leaves what is ahead, and a byte pending unless there is nothing. -/
theorem ahead_of_refill_ok (hrefill : r.refill s = (.ok (), r', s')) :
    r.ahead s = r'.ahead s' ∧ (r'.pending = [] → r'.ahead s' = ([], none)) := by
  fun_induction refill r s with
  | case1 r s hpending =>
    cases hrefill
    exact ⟨rfl, fun hnil => absurd hnil hpending⟩
  | case2 => cases hrefill
  | case3 r s hpending s₁ hnext =>
    have hsame := eq_of_nextChunk_end hnext
    cases hrefill
    rw [hsame]
    refine ⟨rfl, fun hnil => ?_⟩
    rw [ahead_of_pending_nil hnil, beyond_of_end hnext]
  | case4 r s hpending s₁ chunk hnext ih =>
    rw [ahead_of_pending_nil (Decidable.not_not.1 hpending), beyond_of_chunk hnext]
    exact ih hrefill

/-- A read that fails does so with the first error ahead. -/
theorem ahead_of_read_error {failure : IoError} (hread : r.read size s = (.error failure, r', s')) :
    ∃ error, r.ahead s = ([], some error) ∧ failure = error.toStream := by
  rw [read] at hread
  split at hread
  · cases hread
  · split at hread
    · rename_i hrefill
      cases hread
      exact ⟨_, ahead_of_refill_error hrefill, rfl⟩
    · cases hread

/-- The reader once it has handed out as many pending bytes as were asked for. -/
def hand (size : Nat) (r : ChunkReader) : ChunkReader :=
  { r with
    pending := r.pending.drop size
    delivered := r.delivered + UInt64.ofNat (r.pending.take size).length }

theorem ahead_hand (size : Nat) (r : ChunkReader) (s : ChunkStore) :
    r.ahead s = (r.pending.take size ++ ((r.hand size).ahead s).1, ((r.hand size).ahead s).2) := by
  have hsplit : (r.pending.take size).length + (r.pending.drop size).length =
      r.pending.length := by
    rw [← List.length_append, List.take_append_drop]
  have hspend : (r.hand size).spend = r.spend := by
    simp only [hand, spend, UInt64.add_assoc, ← UInt64.ofNat_add, hsplit]
  rw [ahead, ahead, hspend, hand, ← List.append_assoc, List.take_append_drop]

theorem read_of_refill_ok (hsize : 0 < size) (hrefill : r.refill s = (.ok (), r', s')) :
    r.read size s = (.ok (r'.pending.take size), r'.hand size, s') := by
  rw [read, if_neg (Nat.ne_of_gt hsize), hrefill]
  rfl

theorem read_of_refill_error (hsize : 0 < size) (hrefill : r.refill s = (.error error, r', s')) :
    r.read size s = (.error error.toStream, r', s') := by
  rw [read, if_neg (Nat.ne_of_gt hsize), hrefill]

/-- A read takes its bytes off the front, and comes back empty only at the end. -/
theorem ahead_of_read_ok {bytes : Bytes} (hsize : 0 < size)
    (hread : r.read size s = (.ok bytes, r', s')) :
    r.ahead s = (bytes ++ (r'.ahead s').1, (r'.ahead s').2) ∧
      (bytes = [] → r.ahead s = ([], none)) := by
  rcases hrefill : r.refill s with ⟨error | _, r₁, s₁⟩
  · rw [read_of_refill_error hsize hrefill] at hread
    cases hread
  · rw [read_of_refill_ok hsize hrefill] at hread
    obtain ⟨hsame, hend⟩ := ahead_of_refill_ok hrefill
    cases hread
    refine ⟨hsame.trans (ahead_hand size r₁ s'), fun hnil => ?_⟩
    rw [hsame]
    apply hend
    rcases List.take_eq_nil_iff.1 hnil with hzero | hpending
    · exact absurd hzero (Nat.ne_of_gt hsize)
    · exact hpending

end Beyond

set_option linter.unusedVariables false in
/-- Reads on until the value ends or a read fails; `sizes` tells how many bytes each
read asks for. -/
def drain (sizes : Nat → Nat) (r : ChunkReader) (s : ChunkStore) : Bytes × Option IoError :=
  match hread : r.read (sizes 0) s with
  | (.error failure, _, _) => ([], some failure)
  | (.ok [], _, _) => ([], none)
  | (.ok (byte :: bytes), r', s') =>
    let rest := r'.drain (fun turn => sizes (turn + 1)) s'
    (byte :: bytes ++ rest.1, rest.2)
termination_by r.weight
decreasing_by exact weight_read hread (List.cons_ne_nil byte bytes)

/-- Whatever the sizes of the reads, they hand out all bytes ahead. -/
theorem drain_eq (sizes : Nat → Nat) (hsizes : ∀ turn, 0 < sizes turn) (r : ChunkReader)
    (s : ChunkStore) :
    r.drain sizes s = ((r.ahead s).1, (r.ahead s).2.map VaultError.toStream) := by
  fun_induction drain sizes r s with
  | case1 sizes r s failure r' s' hread =>
    obtain ⟨error, hahead, rfl⟩ := ahead_of_read_error hread
    rw [hahead]
    rfl
  | case2 sizes r s r' s' hread =>
    rw [(ahead_of_read_ok (hsizes 0) hread).2 rfl]
    rfl
  | case3 sizes r s byte bytes r' s' hread rest ih =>
    have hrest := ih fun turn => hsizes (turn + 1)
    simp only [(ahead_of_read_ok (hsizes 0) hread).1, rest, hrest]

end ChunkReader

end ContentVault
