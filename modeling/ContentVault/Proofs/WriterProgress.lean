import ContentVault.Proofs.WriterInvariant

/-!
# Writers that are not refused anything

Where the store serves every call, a value can be begun, written to and finished;
nothing but a refused call makes a writer fail.
-/

namespace ContentVault

namespace ChunkWriter

variable {w w' : ChunkWriter} {s s' : ChunkStore}

theorem exists_create (base : String) {chunkSize : ChunkSize} (hbuffer : chunkSize.IsAllocatable)
    (hserves : s.ServesAll) : ∃ w s', create base chunkSize s = (.ok w, s') := by
  have hserves' : (s.after (.load base)).ServesAll := hserves
  rcases create_cases base chunkSize s with ⟨refusal, hrefused, -⟩ | ⟨refusal, hrefused, -⟩ |
    ⟨replaced, -, -, heq⟩ | ⟨-, hpanics, -⟩
  · rw [hserves.refusal?_eq] at hrefused
    cases hrefused
  · rw [hserves'.refusal?_eq] at hrefused
    cases hrefused
  · exact ⟨_, _, heq⟩
  · exact absurd hbuffer hpanics

theorem exists_commitChunk (w : ChunkWriter) (hserves : s.ServesAll) :
    ∃ w' s', w.commitChunk s = (.ok (), w', s') ∧ s'.ServesAll := by
  rw [commitChunk_eq, hserves.refusal?_eq]
  exact ⟨_, _, rfl, hserves⟩

theorem exists_fill (count : Nat) (w : ChunkWriter) (data : Bytes) (hserves : s.ServesAll) :
    ∃ w' s', fill count w data s = (.ok (), w', s') := by
  induction count generalizing w data s with
  | zero => exact ⟨_, _, rfl⟩
  | succ count ih =>
    obtain ⟨w₁, s₁, hcommit, hserves₁⟩ := exists_commitChunk
      (w.accept (data.take (w.chunkSize.toNat - w.buffer.size))) hserves
    rw [fill, hcommit]
    exact ih _ _ hserves₁

theorem exists_write (hwriting : w.state = .writing) (data : Bytes) (hserves : s.ServesAll) :
    ∃ w' s', w.write data s = (.ok (), w', s') := by
  rw [write_of_writing hwriting]
  exact exists_fill _ w data hserves

theorem exists_close (w : ChunkWriter) (hserves : s.ServesAll) :
    ∃ result w' s', w.close s = (.ok result, w', s') := by
  rw [close_eq, hserves.refusal?_eq]
  exact ⟨_, _, _, rfl⟩

theorem exists_finish (hwriting : w.state = .writing) (hserves : s.ServesAll) :
    ∃ result w' s', w.finish s = (.ok result, w', s') := by
  obtain ⟨w₁, s₁, hcommitted, hserves₁⟩ := exists_commitChunk w hserves
  rcases finish_cases hwriting s with ⟨error, w', s', -, hcommit, -⟩ | ⟨w', s', -, hcommit, heq⟩ |
    ⟨-, heq⟩
  · rw [hcommitted] at hcommit
    cases hcommit
  · rw [hcommitted] at hcommit
    cases hcommit
    rw [heq]
    exact exists_close w₁ hserves₁
  · rw [heq]
    exact exists_close w hserves

end ChunkWriter

end ContentVault
