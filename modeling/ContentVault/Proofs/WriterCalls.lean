import ContentVault.ChunkWriter
import ContentVault.Proofs.StoreCalls

/-!
# What a writer asks of its store

Each operation of a writer is a sequence of calls for the keys of its own value.
Beginning a value looks the manifest up and removes it; writing only stores chunks;
finishing stores the last chunk and the manifest and then removes chunks that are
not part of the new value.
-/

namespace ContentVault

open ChunkStore (Calls)

def Call.StoresChunk (base : String) (call : Call) : Prop :=
  ∃ index value, call = .store (chunkKey base index) value

/-- A call that finishing a value makes: it stores a chunk or the manifest, or removes
a chunk from an index on. -/
def Call.Finishes (base : String) (first : UInt64) (call : Call) : Prop :=
  call.StoresChunk base ∨ (∃ value, call = .store base value) ∨
    ∃ index, first ≤ index ∧ call = .remove (chunkKey base index)

theorem Call.StoresChunk.within {base : String} {call : Call} (hcall : call.StoresChunk base) :
    call.Within base := by
  obtain ⟨index, value, rfl⟩ := hcall
  exact Occupies.chunk base index

theorem Call.Finishes.within {base : String} {first : UInt64} {call : Call}
    (hcall : call.Finishes base first) : call.Within base := by
  rcases hcall with hchunk | ⟨value, rfl⟩ | ⟨index, -, rfl⟩
  · exact hchunk.within
  · exact Occupies.base base
  · exact Occupies.chunk base index

/-- Storing chunks leaves the manifest alone. -/
theorem Call.StoresChunk.not_alters_base {base : String} {call : Call}
    (hcall : call.StoresChunk base) : ¬call.Alters base := by
  obtain ⟨index, value, rfl⟩ := hcall
  intro halters
  exact chunkKey_ne_self base index (Call.key_eq_of_alters halters)

theorem Call.StoresChunk.ne_remove {base key : String} {call : Call}
    (hcall : call.StoresChunk base) : call ≠ .remove key := by
  obtain ⟨index, value, rfl⟩ := hcall
  exact Call.noConfusion

namespace ChunkWriter

variable {w w' : ChunkWriter} {s s' : ChunkStore} {base : String} {chunkSize : ChunkSize}
  {data : Bytes} {error : VaultError}

section Create

variable (base : String) (chunkSize : ChunkSize) (s : ChunkStore)

/-- Begins a value in place of one of so many chunks, once its manifest was looked up. -/
def createReplacing (replaced : UInt64) (s : ChunkStore) :
    Except (Failure VaultError) ChunkWriter × ChunkStore :=
  match s.remove base with
  | (.error error, s) => (.error (.reported (.backendUnavailable error)), s)
  | (.ok _, s) =>
    if chunkSize.IsAllocatable then
      (.ok ⟨base, chunkSize, .empty, 0, 0, replaced, .writing⟩, s)
    else (.error .panicked, s)

theorem createReplacing_cases (replaced : UInt64) :
    (∃ refusal, s.refusal? (.remove base) = some refusal ∧
      createReplacing base chunkSize replaced s =
        (.error (.reported (.backendUnavailable refusal)), s.after (.remove base))) ∨
    (∃ replaced', s.refusal? (.remove base) = none ∧ chunkSize.IsAllocatable ∧
      createReplacing base chunkSize replaced s =
        (.ok ⟨base, chunkSize, .empty, 0, 0, replaced', .writing⟩, s.after (.remove base))) ∨
    (s.refusal? (.remove base) = none ∧ ¬chunkSize.IsAllocatable ∧
      createReplacing base chunkSize replaced s =
        (.error .panicked, s.after (.remove base))) := by
  rw [createReplacing, ChunkStore.remove_eq]
  cases hremove : s.refusal? (.remove base) with
  | some refusal => exact .inl ⟨refusal, rfl, rfl⟩
  | none =>
    by_cases hbuffer : chunkSize.IsAllocatable
    · exact .inr (.inl ⟨replaced, rfl, hbuffer, if_pos hbuffer⟩)
    · exact .inr (.inr ⟨rfl, hbuffer, if_neg hbuffer⟩)

/-- A value is begun by looking up its manifest and removing it.  If either is
refused there is no writer and nothing has changed; if both are served there is none
only for want of a buffer. -/
theorem create_cases :
    (∃ refusal, s.refusal? (.load base) = some refusal ∧
      create base chunkSize s =
        (.error (.reported (.backendUnavailable refusal)), s.after (.load base))) ∨
    (∃ refusal, (s.after (.load base)).refusal? (.remove base) = some refusal ∧
      create base chunkSize s =
        (.error (.reported (.backendUnavailable refusal)),
          (s.after (.load base)).after (.remove base))) ∨
    (∃ replaced, (s.after (.load base)).refusal? (.remove base) = none ∧
      chunkSize.IsAllocatable ∧
      create base chunkSize s =
        (.ok ⟨base, chunkSize, .empty, 0, 0, replaced, .writing⟩,
          (s.after (.load base)).after (.remove base))) ∨
    ((s.after (.load base)).refusal? (.remove base) = none ∧ ¬chunkSize.IsAllocatable ∧
      create base chunkSize s =
        (.error .panicked, (s.after (.load base)).after (.remove base))) := by
  have hbegun := createReplacing_cases base chunkSize (s.after (.load base))
  rcases ChunkStore.loadManifest_cases base s with ⟨error, hrefused, hload⟩ | ⟨fault, hload⟩ |
    ⟨found, hload⟩
  · rw [create, hload]
    cases error with
    | manifest fault => exact .inr (hbegun 0)
    | _ => exact .inl ⟨_, hrefused, rfl⟩
  · rw [create, hload]
    exact .inr (hbegun 0)
  · rw [create, hload]
    cases found with
    | none => exact .inr (hbegun 0)
    | some previous => exact .inr (hbegun previous.chunks)

theorem calls_create :
    Calls (fun call => call = .load base ∨ call = .remove base) s (create base chunkSize s).2 := by
  have hload : Calls (fun call => call = .load base ∨ call = .remove base) s
      (s.after (.load base)) :=
    Calls.single (.inl rfl)
  have hboth : Calls (fun call => call = .load base ∨ call = .remove base) s
      ((s.after (.load base)).after (.remove base)) :=
    hload.trans (Calls.single (.inr rfl))
  rcases create_cases base chunkSize s with ⟨refusal, -, heq⟩ | ⟨refusal, -, heq⟩ |
    ⟨replaced, -, -, heq⟩ | ⟨-, -, heq⟩
  · rw [heq]
    exact hload
  · rw [heq]
    exact hboth
  · rw [heq]
    exact hboth
  · rw [heq]
    exact hboth

/-- Every call of beginning a value is for its manifest. -/
theorem calls_create_within : Calls (Call.Within base) s (create base chunkSize s).2 := by
  apply (calls_create base chunkSize s).mono
  rintro call (rfl | rfl)
  · exact Occupies.base base
  · exact Occupies.base base

end Create

/-- Where creating a writer reports an error nothing has changed. -/
theorem eq_of_create_error (hcreate : create base chunkSize s = (.error (.reported error), s')) :
    (∃ refusal, error = .backendUnavailable refusal) ∧ s'.contents = s.contents := by
  rcases create_cases base chunkSize s with ⟨refusal, -, heq⟩ | ⟨refusal, hrefused, heq⟩ |
    ⟨replaced, -, -, heq⟩ | ⟨-, -, heq⟩ <;> rw [hcreate] at heq <;> cases heq
  · exact ⟨⟨refusal, rfl⟩, ChunkStore.contents_after_load base s⟩
  · refine ⟨⟨refusal, rfl⟩, ?_⟩
    rw [ChunkStore.contents_after_of_refused _ _ hrefused, ChunkStore.contents_after_load]

/-- Where creating a writer panics there is no buffer of that size, and the manifest is gone. -/
theorem eq_of_create_panicked (hcreate : create base chunkSize s = (.error .panicked, s')) :
    ¬chunkSize.IsAllocatable ∧ s'.contents = s.contents.erase base := by
  rcases create_cases base chunkSize s with ⟨refusal, -, heq⟩ | ⟨refusal, -, heq⟩ |
    ⟨replaced, -, -, heq⟩ | ⟨hserved, hbuffer, heq⟩ <;> rw [hcreate] at heq <;> cases heq
  refine ⟨hbuffer, ?_⟩
  rw [ChunkStore.contents_after_of_served _ _ hserved, ChunkStore.contents_after_load]
  rfl

/-- A new writer has accepted nothing, and the manifest is gone. -/
theorem eq_of_create_ok (hcreate : create base chunkSize s = (.ok w, s')) :
    (∃ replaced, w = ⟨base, chunkSize, .empty, 0, 0, replaced, .writing⟩) ∧
      s'.contents = s.contents.erase base := by
  rcases create_cases base chunkSize s with ⟨refusal, -, heq⟩ | ⟨refusal, -, heq⟩ |
    ⟨replaced, hserved, -, heq⟩ | ⟨-, -, heq⟩ <;> rw [hcreate] at heq <;> cases heq
  refine ⟨⟨replaced, rfl⟩, ?_⟩
  rw [ChunkStore.contents_after_of_served _ _ hserved, ChunkStore.contents_after_load]
  rfl

/-- Where neither call is refused, a value whose chunks are too large for a buffer is begun only
to panic. -/
theorem create_of_not_allocatable (hbuffer : ¬chunkSize.IsAllocatable)
    (hload : s.refusal? (.load base) = none)
    (hremove : (s.after (.load base)).refusal? (.remove base) = none) :
    create base chunkSize s = (.error .panicked, (s.after (.load base)).after (.remove base)) := by
  rcases create_cases base chunkSize s with ⟨refusal, hrefused, -⟩ | ⟨refusal, hrefused, -⟩ |
    ⟨replaced, -, hallocatable, -⟩ | ⟨-, -, heq⟩
  · rw [hload] at hrefused
    cases hrefused
  · rw [hremove] at hrefused
    cases hrefused
  · exact absurd hallocatable hbuffer
  · exact heq

/-- The smallest size of chunks that are too large for a buffer. -/
def hugeChunkSize : ChunkSize := ⟨0x8000000000000000, by decide⟩

theorem not_allocatable_hugeChunkSize : ¬hugeChunkSize.IsAllocatable := by decide

theorem commitChunk_eq (w : ChunkWriter) (s : ChunkStore) :
    w.commitChunk s =
      match s.refusal? (.store (chunkKey w.base w.committed) w.buffer.toList) with
      | some error => (.error (.chunkCommitFailed w.committed error), w.fail w.committed,
          s.after (.store (chunkKey w.base w.committed) w.buffer.toList))
      | none => (.ok (), { w with committed := w.committed + 1, buffer := .empty },
          s.after (.store (chunkKey w.base w.committed) w.buffer.toList)) := by
  rw [commitChunk, ChunkStore.store_eq]
  cases s.refusal? (.store (chunkKey w.base w.committed) w.buffer.toList) <;> rfl

theorem eq_of_commitChunk_ok {result : Unit} (hcommit : w.commitChunk s = (.ok result, w', s')) :
    w' = { w with committed := w.committed + 1, buffer := .empty } ∧
      s'.contents = s.contents.insert (chunkKey w.base w.committed) w.buffer.toList := by
  rw [commitChunk_eq] at hcommit
  cases hrefusal : s.refusal? (.store (chunkKey w.base w.committed) w.buffer.toList) with
  | some error =>
    rw [hrefusal] at hcommit
    cases hcommit
  | none =>
    rw [hrefusal] at hcommit
    cases hcommit
    exact ⟨rfl, ChunkStore.contents_after_of_served _ _ hrefusal⟩

/-- A chunk that cannot be stored leaves a failed writer. -/
theorem eq_of_commitChunk_error (hcommit : w.commitChunk s = (.error error, w', s')) :
    w' = w.fail w.committed ∧ s'.contents = s.contents := by
  rw [commitChunk_eq] at hcommit
  cases hrefusal : s.refusal? (.store (chunkKey w.base w.committed) w.buffer.toList) with
  | none =>
    rw [hrefusal] at hcommit
    cases hcommit
  | some refusal =>
    rw [hrefusal] at hcommit
    cases hcommit
    exact ⟨rfl, ChunkStore.contents_after_of_refused _ _ hrefusal⟩

theorem calls_commitChunk (w : ChunkWriter) (s : ChunkStore) :
    Calls (Call.StoresChunk w.base) s (w.commitChunk s).2.2 := by
  rw [commitChunk_eq]
  have hcall : Calls (Call.StoresChunk w.base) s
      (s.after (.store (chunkKey w.base w.committed) w.buffer.toList)) :=
    Calls.single ⟨w.committed, w.buffer.toList, rfl⟩
  cases s.refusal? (.store (chunkKey w.base w.committed) w.buffer.toList) <;> exact hcall

theorem base_commitChunk (w : ChunkWriter) (s : ChunkStore) :
    (w.commitChunk s).2.1.base = w.base := by
  rw [commitChunk_eq]
  cases s.refusal? (.store (chunkKey w.base w.committed) w.buffer.toList) <;> rfl

/-- Bytes that fill the buffer are stored with it, and what follows them starts a new
one. -/
theorem fill_succ_cases (count : Nat) (w : ChunkWriter) (data : Bytes) (s : ChunkStore) :
    (∃ error w' s',
      (w.accept (data.take (w.chunkSize.toNat - w.buffer.size))).commitChunk s =
        (.error error, w', s') ∧
      fill (count + 1) w data s = (.error error, w', s')) ∨
    (∃ w' s',
      (w.accept (data.take (w.chunkSize.toNat - w.buffer.size))).commitChunk s =
        (.ok (), w', s') ∧
      fill (count + 1) w data s =
        fill count w' (data.drop (w.chunkSize.toNat - w.buffer.size)) s') := by
  rcases hcommit :
    (w.accept (data.take (w.chunkSize.toNat - w.buffer.size))).commitChunk s with
    ⟨error | _, w', s'⟩
  · exact .inl ⟨error, w', s', rfl, by rw [fill, hcommit]⟩
  · exact .inr ⟨w', s', rfl, by rw [fill, hcommit]⟩

theorem calls_fill (count : Nat) (w : ChunkWriter) (data : Bytes) (s : ChunkStore) :
    Calls (Call.StoresChunk w.base) s (fill count w data s).2.2 := by
  induction count generalizing w data s with
  | zero => exact Calls.refl s
  | succ count ih =>
    have hcalls := calls_commitChunk (w.accept (data.take (w.chunkSize.toNat - w.buffer.size))) s
    have hbase := base_commitChunk (w.accept (data.take (w.chunkSize.toNat - w.buffer.size))) s
    rcases fill_succ_cases count w data s with ⟨error, w', s', hcommit, heq⟩ |
      ⟨w', s', hcommit, heq⟩
    · rw [hcommit] at hcalls
      rw [heq]
      exact hcalls
    · rw [hcommit] at hcalls hbase
      rw [heq]
      apply hcalls.trans
      rw [← hbase]
      exact ih w' _ s'

theorem base_fill (count : Nat) (w : ChunkWriter) (data : Bytes) (s : ChunkStore) :
    (fill count w data s).2.1.base = w.base := by
  induction count generalizing w data s with
  | zero => rfl
  | succ count ih =>
    have hbase := base_commitChunk (w.accept (data.take (w.chunkSize.toNat - w.buffer.size))) s
    rcases fill_succ_cases count w data s with ⟨error, w', s', hcommit, heq⟩ |
      ⟨w', s', hcommit, heq⟩
    · rw [hcommit] at hbase
      rw [heq]
      exact hbase
    · rw [hcommit] at hbase
      rw [heq, ih]
      exact hbase

theorem ensureWriting_of_writing (hwriting : w.state = .writing) :
    w.ensureWriting = .ok () := by
  rw [ensureWriting, hwriting]

theorem ensureWriting_of_not_writing (hwriting : w.state ≠ .writing) :
    ∃ error, w.ensureWriting = .error error := by
  rw [ensureWriting]
  cases hstate : w.state with
  | writing => exact absurd hstate hwriting
  | failed index => exact ⟨_, rfl⟩
  | finished => exact ⟨_, rfl⟩

theorem write_of_writing (hwriting : w.state = .writing) (data : Bytes) (s : ChunkStore) :
    w.write data s = fill ((w.buffer.size + data.length) / w.chunkSize.toNat) w data s := by
  rw [write, ensureWriting_of_writing hwriting]

theorem write_of_not_writing (hwriting : w.state ≠ .writing) (data : Bytes) (s : ChunkStore) :
    ∃ error, w.write data s = (.error error, w, s) := by
  obtain ⟨error, hensure⟩ := ensureWriting_of_not_writing hwriting
  exact ⟨error, by rw [write, hensure]⟩

theorem calls_write (w : ChunkWriter) (data : Bytes) (s : ChunkStore) :
    Calls (Call.StoresChunk w.base) s (w.write data s).2.2 := by
  by_cases hwriting : w.state = .writing
  · rw [write_of_writing hwriting]
    exact calls_fill _ w data s
  · obtain ⟨error, heq⟩ := write_of_not_writing hwriting data s
    rw [heq]
    exact Calls.refl s

theorem base_write (w : ChunkWriter) (data : Bytes) (s : ChunkStore) :
    (w.write data s).2.1.base = w.base := by
  by_cases hwriting : w.state = .writing
  · rw [write_of_writing hwriting]
    exact base_fill _ w data s
  · obtain ⟨error, heq⟩ := write_of_not_writing hwriting data s
    rw [heq]

theorem calls_removeChunks (base : String) (count : Nat) (first : UInt64) (s : ChunkStore)
    (hcount : first.toNat + count < UInt64.size) :
    Calls (fun call => ∃ index, first ≤ index ∧ call = .remove (chunkKey base index)) s
      (removeChunks base count first s) := by
  induction count generalizing first s with
  | zero => exact Calls.refl s
  | succ count ih =>
    have hnext : (first + 1).toNat = first.toNat + 1 := by
      rw [UInt64.toNat_add, UInt64.toNat_one]
      exact Nat.mod_eq_of_lt (Nat.lt_of_le_of_lt (by omega) hcount)
    rw [removeChunks, ChunkStore.remove_eq]
    apply Calls.trans (Calls.single ⟨first, UInt64.le_refl first, rfl⟩)
    apply (ih (first + 1) _ (by omega)).mono
    rintro call ⟨index, hindex, rfl⟩
    refine ⟨index, ?_, rfl⟩
    rw [UInt64.le_iff_toNat_le] at hindex ⊢
    omega

/-- The chunks that only the replaced value had begin where those of the new one end. -/
theorem calls_removeReplaced (w : ChunkWriter) (s : ChunkStore) :
    Calls (fun call => ∃ index, w.committed ≤ index ∧ call = .remove (chunkKey w.base index)) s
      (removeChunks w.base (w.replaced.toNat - w.committed.toNat) w.committed s) := by
  apply calls_removeChunks
  have hreplaced := w.replaced.toNat_lt
  have hcommitted := w.committed.toNat_lt
  have hsize : UInt64.size = 2 ^ 64 := rfl
  omega

theorem close_eq (w : ChunkWriter) (s : ChunkStore) :
    w.close s =
      match s.refusal? (.store w.base w.manifest.encode) with
      | some error => (.error (.chunkCommitFailed w.committed error), w.fail w.committed,
          s.after (.store w.base w.manifest.encode))
      | none => (.ok w.manifest, { w with replaced := 0, state := .finished },
          removeChunks w.base (w.replaced.toNat - w.committed.toNat) w.committed
            (s.after (.store w.base w.manifest.encode))) := by
  rw [close, ChunkStore.storeManifest, ChunkStore.store_eq]
  cases s.refusal? (.store w.base w.manifest.encode) <;> rfl

/-- A value is closed by storing its manifest; then only chunks behind it are removed. -/
theorem eq_of_close_ok {result : Manifest} (hclose : w.close s = (.ok result, w', s')) :
    result = w.manifest ∧ w' = { w with replaced := 0, state := .finished } ∧
      ∃ t : ChunkStore, t.contents = s.contents.insert w.base w.manifest.encode ∧
        Calls (fun call => ∃ index, w.committed ≤ index ∧
          call = .remove (chunkKey w.base index)) t s' := by
  rw [close_eq] at hclose
  cases hrefusal : s.refusal? (.store w.base w.manifest.encode) with
  | some error =>
    rw [hrefusal] at hclose
    cases hclose
  | none =>
    rw [hrefusal] at hclose
    cases hclose
    exact ⟨rfl, rfl, _, ChunkStore.contents_after_of_served _ _ hrefusal,
      calls_removeReplaced w _⟩

theorem eq_of_close_error (hclose : w.close s = (.error error, w', s')) :
    w' = w.fail w.committed ∧ s'.contents = s.contents := by
  rw [close_eq] at hclose
  cases hrefusal : s.refusal? (.store w.base w.manifest.encode) with
  | none =>
    rw [hrefusal] at hclose
    cases hclose
  | some refusal =>
    rw [hrefusal] at hclose
    cases hclose
    exact ⟨rfl, ChunkStore.contents_after_of_refused _ _ hrefusal⟩

theorem calls_close (w : ChunkWriter) (s : ChunkStore) :
    Calls (Call.Finishes w.base w.committed) s (w.close s).2.2 := by
  have hstore : Calls (Call.Finishes w.base w.committed) s
      (s.after (.store w.base w.manifest.encode)) :=
    Calls.single (.inr (.inl ⟨w.manifest.encode, rfl⟩))
  rw [close_eq]
  cases s.refusal? (.store w.base w.manifest.encode) with
  | some error => exact hstore
  | none =>
    exact hstore.trans ((calls_removeReplaced w _).mono fun call hcall => .inr (.inr hcall))

theorem base_close (w : ChunkWriter) (s : ChunkStore) : (w.close s).2.1.base = w.base := by
  rw [close_eq]
  cases s.refusal? (.store w.base w.manifest.encode) <;> rfl

/-- Finishing a writer that is writing closes the value, after the last chunk if one
is due. -/
theorem finish_cases (hwriting : w.state = .writing) (s : ChunkStore) :
    (∃ error w' s', (w.buffer.size ≠ 0 ∨ w.committed = 0) ∧
      w.commitChunk s = (.error error, w', s') ∧ w.finish s = (.error error, w', s')) ∨
    (∃ w' s', (w.buffer.size ≠ 0 ∨ w.committed = 0) ∧
      w.commitChunk s = (.ok (), w', s') ∧ w.finish s = w'.close s') ∨
    (¬(w.buffer.size ≠ 0 ∨ w.committed = 0) ∧ w.finish s = w.close s) := by
  have hensure := ensureWriting_of_writing hwriting
  by_cases hlast : w.buffer.size ≠ 0 ∨ w.committed = 0
  · rcases hcommit : w.commitChunk s with ⟨error | _, w', s'⟩
    · refine .inl ⟨error, w', s', hlast, rfl, ?_⟩
      simp only [finish, hensure, if_pos hlast, hcommit]
    · refine .inr (.inl ⟨w', s', hlast, rfl, ?_⟩)
      simp only [finish, hensure, if_pos hlast, hcommit]
  · refine .inr (.inr ⟨hlast, ?_⟩)
    simp only [finish, hensure, if_neg hlast]

theorem finish_of_not_writing (hwriting : w.state ≠ .writing) (s : ChunkStore) :
    ∃ error, w.finish s = (.error error, w, s) := by
  obtain ⟨error, hensure⟩ := ensureWriting_of_not_writing hwriting
  exact ⟨error, by rw [finish, hensure]⟩

theorem base_finish (w : ChunkWriter) (s : ChunkStore) : (w.finish s).2.1.base = w.base := by
  by_cases hwriting : w.state = .writing
  · have hbase := base_commitChunk w s
    rcases finish_cases hwriting s with ⟨error, w', s', -, hcommit, heq⟩ |
      ⟨w', s', -, hcommit, heq⟩ | ⟨-, heq⟩
    · rw [hcommit] at hbase
      rw [heq]
      exact hbase
    · rw [hcommit] at hbase
      rw [heq, base_close]
      exact hbase
    · rw [heq, base_close]
  · obtain ⟨error, heq⟩ := finish_of_not_writing hwriting s
    rw [heq]

/-- Every call of finishing is for a key of the value. -/
theorem calls_finish (w : ChunkWriter) (s : ChunkStore) :
    Calls (Call.Within w.base) s (w.finish s).2.2 := by
  have hclose (w : ChunkWriter) (s : ChunkStore) : Calls (Call.Within w.base) s (w.close s).2.2 :=
    (calls_close w s).mono fun _ hcall => hcall.within
  by_cases hwriting : w.state = .writing
  · have hcalls := (calls_commitChunk w s).mono fun _ hcall => hcall.within
    have hbase := base_commitChunk w s
    rcases finish_cases hwriting s with ⟨error, w', s', -, hcommit, heq⟩ |
      ⟨w', s', -, hcommit, heq⟩ | ⟨-, heq⟩
    · rw [hcommit] at hcalls
      rw [heq]
      exact hcalls
    · rw [hcommit] at hcalls hbase
      rw [heq]
      apply hcalls.trans
      rw [← hbase]
      exact hclose w' s'
    · rw [heq]
      exact hclose w s
  · obtain ⟨error, heq⟩ := finish_of_not_writing hwriting s
    rw [heq]
    exact Calls.refl s

theorem drop_eq (w : ChunkWriter) (s : ChunkStore) : w.drop s = (w.finish s).2.2 := by
  by_cases hwriting : w.state = .writing
  · rw [drop, hwriting]
  · obtain ⟨error, heq⟩ := finish_of_not_writing hwriting s
    rw [heq, drop]
    cases hstate : w.state with
    | writing => exact absurd hstate hwriting
    | failed index => rfl
    | finished => rfl

end ChunkWriter

end ContentVault
