import ContentVault.Proofs.ValueLayout
import ContentVault.Proofs.WriterCalls

/-!
# The state of a writer between calls

As long as a writer is writing, the chunks it has stored and the bytes it has
buffered are together exactly the bytes it has accepted, and there is no manifest.
Finishing such a writer leaves the whole value in the store; a writer that was
refused a call has failed for good.
-/

namespace ContentVault

open ChunkStore (Calls)

namespace ChunkWriter

/-- A writer that is writing has accepted these bytes: first those in the chunks that
the contents hold, then those in its buffer, which is less than a chunk. -/
structure Holds (w : ChunkWriter) (contents : Contents) (accepted : Bytes) : Prop where
  writing : w.state = .writing
  length : w.length = UInt64.ofNat accepted.length
  count : w.committed.toNat * w.chunkSize.toNat + w.buffer.size = accepted.length
  room : w.buffer.size < w.chunkSize.toNat
  buffer : w.buffer.toList = accepted.drop (w.committed.toNat * w.chunkSize.toNat)
  chunks : contents.HoldsPieces w.base w.chunkSize accepted w.committed
  unclosed : contents[w.base]? = none

variable {w w' : ChunkWriter} {s s' : ChunkStore} {accepted data : Bytes} {error : VaultError}

theorem Holds.create {base : String} {chunkSize : ChunkSize}
    (hcreate : create base chunkSize s = (.ok w, s')) :
    w.base = base ∧ w.chunkSize = chunkSize ∧ w.Holds s'.contents [] := by
  obtain ⟨⟨replaced, rfl⟩, hcontents⟩ := eq_of_create_ok hcreate
  refine ⟨rfl, rfl, ?_⟩
  exact {
    writing := rfl
    length := rfl
    count := by simp [Buffer.empty]
    room := chunkSize.toNat_pos
    buffer := by simp [Buffer.empty, Buffer.toList]
    chunks := Contents.HoldsPieces.zero
    unclosed := by rw [hcontents, Std.ExtTreeMap.getElem?_erase_self] }

/-- What a writer has accepted stays as long as every key that its value occupies keeps
its value. -/
theorem Holds.congr {contents contents' : Contents} (hw : w.Holds contents accepted)
    (hkeeps : ∀ key, Occupies w.base key → contents'[key]? = contents[key]?) :
    w.Holds contents' accepted where
  writing := hw.writing
  length := hw.length
  count := hw.count
  room := hw.room
  buffer := hw.buffer
  chunks := hw.chunks.congr fun i _ => hkeeps (chunkKey w.base i) (.chunk w.base i)
  unclosed := (hkeeps w.base (.base w.base)).trans hw.unclosed

section Accept

variable (w : ChunkWriter) (data : Bytes)

@[simp]
theorem base_accept : (w.accept data).base = w.base := rfl

@[simp]
theorem committed_accept : (w.accept data).committed = w.committed := rfl

@[simp]
theorem toList_buffer_accept :
    (w.accept data).buffer.toList = w.buffer.toList ++ data :=
  Buffer.toList_append _ _

end Accept

theorem Holds.stored_le (hw : w.Holds s.contents accepted) :
    w.committed.toNat * w.chunkSize.toNat ≤ accepted.length := by
  rw [← hw.count]
  exact Nat.le_add_right _ _

/-- The buffer and what is added to it lie behind the stored chunks. -/
theorem Holds.buffer_append (hw : w.Holds s.contents accepted) (data : Bytes) :
    w.buffer.toList ++ data =
      (accepted ++ data).drop (w.committed.toNat * w.chunkSize.toNat) := by
  rw [List.drop_append_of_le_length hw.stored_le, ← hw.buffer]

theorem Holds.length_append (hw : w.Holds s.contents accepted) (data : Bytes) :
    (w.accept data).length = UInt64.ofNat (accepted ++ data).length := by
  rw [List.length_append, UInt64.ofNat_add, ← hw.length]
  rfl

/-- Bytes that do not fill the buffer are only buffered. -/
theorem Holds.accept (hw : w.Holds s.contents accepted)
    (hroom : w.buffer.size + data.length < w.chunkSize.toNat) :
    (w.accept data).Holds s.contents (accepted ++ data) where
  writing := hw.writing
  length := hw.length_append data
  count := by
    rw [List.length_append, ← hw.count, Nat.add_assoc]
    rfl
  room := hroom
  buffer := by
    rw [toList_buffer_accept]
    exact hw.buffer_append data
  chunks := hw.chunks.append data hw.stored_le
  unclosed := hw.unclosed

/-- Bytes that fill the buffer become a chunk together with those buffered before. -/
theorem Holds.commitChunk (hw : w.Holds s.contents accepted)
    (hfull : w.buffer.size + data.length = w.chunkSize.toNat)
    (hfits : (accepted ++ data).length < UInt64.size)
    (hcommit : (w.accept data).commitChunk s = (.ok (), w', s')) :
    w'.base = w.base ∧ w'.chunkSize = w.chunkSize ∧ w'.buffer.size = 0 ∧
      w'.Holds s'.contents (accepted ++ data) := by
  have hlength : (accepted ++ data).length = (w.committed.toNat + 1) * w.chunkSize.toNat := by
    rw [List.length_append, ← hw.count, Nat.add_one_mul]
    omega
  have hnext : (w.committed + 1).toNat = w.committed.toNat + 1 := by
    have hle := Nat.le_mul_of_pos_right (w.committed.toNat + 1) w.chunkSize.toNat_pos
    rw [UInt64.toNat_add, UInt64.toNat_one]
    exact Nat.mod_eq_of_lt (Nat.lt_of_le_of_lt (by omega) hfits)
  have hbuffer : w.buffer.toList ++ data =
      piece w.chunkSize.toNat (accepted ++ data) w.committed.toNat := by
    rw [piece, ← hw.buffer_append data, List.take_of_length_le]
    rw [List.length_append, Buffer.length_toList]
    omega
  obtain ⟨rfl, hcontents⟩ := eq_of_commitChunk_ok hcommit
  rw [toList_buffer_accept, hbuffer, base_accept, committed_accept] at hcontents
  refine ⟨rfl, rfl, rfl, ?_⟩
  rw [hcontents]
  exact {
    writing := hw.writing
    length := hw.length_append data
    count := by
      rw [hlength]
      change (w.committed + 1).toNat * w.chunkSize.toNat + 0 = _
      rw [hnext, Nat.add_zero]
    room := w.chunkSize.toNat_pos
    buffer := by
      change [] = (accepted ++ data).drop ((w.committed + 1).toNat * w.chunkSize.toNat)
      rw [hnext, List.drop_of_length_le (Nat.le_of_eq hlength)]
    chunks := (hw.chunks.append data hw.stored_le).insert
    unclosed := by
      change (s.contents.insert (chunkKey w.base w.committed) _)[w.base]? = none
      simp only [Std.ExtTreeMap.getElem?_insert, Std.LawfulEqOrd.compare_eq_iff_eq,
        if_neg (chunkKey_ne_self _ _)]
      exact hw.unclosed }

theorem Holds.fill {count : Nat} (hw : w.Holds s.contents accepted)
    (hcount : (w.buffer.size + data.length) / w.chunkSize.toNat = count)
    (hfits : (accepted ++ data).length < UInt64.size)
    (hfill : fill count w data s = (.ok (), w', s')) :
    w'.base = w.base ∧ w'.chunkSize = w.chunkSize ∧ w'.Holds s'.contents (accepted ++ data) := by
  have hpos := w.chunkSize.toNat_pos
  induction count generalizing w data s accepted with
  | zero =>
    cases hfill
    have hroom := (Nat.div_eq_zero_iff_lt hpos).1 hcount
    exact ⟨rfl, rfl, hw.accept hroom⟩
  | succ count ih =>
    have henough : w.chunkSize.toNat ≤ w.buffer.size + data.length := by
      have := Nat.div_mul_le_self (w.buffer.size + data.length) w.chunkSize.toNat
      rw [hcount, Nat.add_one_mul] at this
      omega
    have hroom := hw.room
    have hsplit : data.take (w.chunkSize.toNat - w.buffer.size) ++
        data.drop (w.chunkSize.toNat - w.buffer.size) = data := List.take_append_drop _ _
    rcases fill_succ_cases count w data s with ⟨error, w₁, s₁, hcommit, heq⟩ |
      ⟨w₁, s₁, hcommit, heq⟩ <;> rw [heq] at hfill
    · cases hfill
    · rw [← hsplit, ← List.append_assoc] at hfits ⊢
      have htaken : w.buffer.size + (data.take (w.chunkSize.toNat - w.buffer.size)).length =
          w.chunkSize.toNat := by
        rw [List.length_take]
        omega
      have hfits₁ : (accepted ++ data.take (w.chunkSize.toNat - w.buffer.size)).length <
          UInt64.size := fits_of_append hfits
      obtain ⟨hbase, hsize, hempty, hw₁⟩ := hw.commitChunk htaken hfits₁ hcommit
      have hcount₁ : (w₁.buffer.size + (data.drop (w.chunkSize.toNat - w.buffer.size)).length) /
          w₁.chunkSize.toNat = count := by
        rw [hempty, hsize, List.length_drop]
        have hrest : w.buffer.size + data.length =
            0 + (data.length - (w.chunkSize.toNat - w.buffer.size)) + w.chunkSize.toNat := by omega
        rw [hrest, Nat.add_div_right _ hpos] at hcount
        omega
      obtain ⟨hbase', hsize', hw'⟩ := ih hw₁ hcount₁ hfits hfill (by rw [hsize]; exact hpos)
      exact ⟨hbase'.trans hbase, hsize'.trans hsize, hw'⟩

/-- A write that succeeds has accepted all its bytes. -/
theorem Holds.write (hw : w.Holds s.contents accepted)
    (hfits : (accepted ++ data).length < UInt64.size)
    (hwrite : w.write data s = (.ok (), w', s')) :
    w'.base = w.base ∧ w'.chunkSize = w.chunkSize ∧ w'.Holds s'.contents (accepted ++ data) := by
  rw [write_of_writing hw.writing] at hwrite
  exact hw.fill rfl hfits hwrite

/-- Every byte that the writer has accepted is in a chunk that the contents hold. -/
structure Covers (w : ChunkWriter) (contents : Contents) (accepted : Bytes) : Prop where
  manifest : w.manifest = manifestOf w.chunkSize accepted
  chunks : contents.HoldsPieces w.base w.chunkSize accepted w.committed

theorem Holds.covers (hw : w.Holds s.contents accepted)
    (hnone : ¬(w.buffer.size ≠ 0 ∨ w.committed = 0)) : w.Covers s.contents accepted := by
  rw [not_or, not_not] at hnone
  obtain ⟨hempty, hsome⟩ := hnone
  refine ⟨?_, hw.chunks⟩
  have hcount := hw.count
  rw [hempty, Nat.add_zero] at hcount
  have hsome : w.committed.toNat ≠ 0 := fun hzero => hsome (UInt64.toNat_inj.1 hzero)
  rw [manifest, manifestOf, hw.length, chunkCount_of_full w.chunkSize.toNat_pos hcount hsome,
    UInt64.ofNat_toNat]

/-- The last chunk takes what is left in the buffer. -/
theorem Holds.covers_of_commitChunk (hw : w.Holds s.contents accepted)
    (hlast : w.buffer.size ≠ 0 ∨ w.committed = 0)
    (hcommit : w.commitChunk s = (.ok (), w', s')) :
    w'.base = w.base ∧ w'.chunkSize = w.chunkSize ∧ w'.Covers s'.contents accepted := by
  have hlast' : 0 < w.buffer.size ∨ w.committed.toNat = 0 := by
    rcases hlast with hsize | hzero
    · exact .inl (Nat.pos_of_ne_zero hsize)
    · exact .inr (by rw [hzero, UInt64.toNat_zero])
  have hcount := chunkCount_of_eq w.chunkSize.toNat_pos (Nat.le_of_lt hw.room) hw.count hlast'
  have hbuffer : w.buffer.toList = piece w.chunkSize.toNat accepted w.committed.toNat := by
    rw [piece, ← hw.buffer, List.take_of_length_le]
    rw [Buffer.length_toList]
    exact Nat.le_of_lt hw.room
  obtain ⟨rfl, hcontents⟩ := eq_of_commitChunk_ok hcommit
  rw [hbuffer] at hcontents
  refine ⟨rfl, rfl, ?_, ?_⟩
  · change Manifest.mk (w.committed + 1) w.length w.chunkSize.bytes = _
    rw [manifestOf, hcount, hw.length, UInt64.ofNat_add, UInt64.ofNat_toNat]
    rfl
  · rw [hcontents]
    exact hw.chunks.insert

theorem Covers.chunks_manifestOf {contents : Contents} (hw : w.Covers contents accepted) :
    (manifestOf w.chunkSize accepted).chunks = w.committed := by
  rw [← hw.manifest]
  rfl

/-- Closing stores the manifest and spares every chunk of the value. -/
theorem Covers.close {result : Manifest} (hw : w.Covers s.contents accepted)
    (hclose : w.close s = (.ok result, w', s')) :
    w'.state = .finished ∧ result = manifestOf w.chunkSize accepted ∧
      s'.contents.HoldsValue w.base w.chunkSize accepted := by
  obtain ⟨rfl, rfl, t, hstored, hremoves⟩ := eq_of_close_ok hclose
  refine ⟨rfl, hw.manifest, ?_, ?_⟩
  · rw [hremoves.getElem?_eq, hstored, ← hw.manifest]
    · exact Std.ExtTreeMap.getElem?_insert_self
    · rintro call ⟨index, -, rfl⟩ halters
      exact chunkKey_ne_self _ _ (Call.key_eq_of_alters halters)
  · rw [hw.chunks_manifestOf]
    apply hw.chunks.congr
    intro i hi
    have hne : w.base ≠ chunkKey w.base i := (chunkKey_ne_self w.base i).symm
    rw [hremoves.getElem?_eq, hstored]
    · simp only [Std.ExtTreeMap.getElem?_insert, Std.LawfulEqOrd.compare_eq_iff_eq, if_neg hne]
    · rintro call ⟨index, hindex, rfl⟩ halters
      have hkey := chunkKey_injective (Call.key_eq_of_alters halters)
      rw [hkey.2] at hindex
      exact absurd hi (UInt64.not_lt.2 hindex)

/-- Finishing a writer, where it succeeds, leaves exactly the accepted bytes as the
value. -/
theorem Holds.finish {result : Manifest} (hw : w.Holds s.contents accepted)
    (hfinish : w.finish s = (.ok result, w', s')) :
    w'.state = .finished ∧ result = manifestOf w.chunkSize accepted ∧
      s'.contents.HoldsValue w.base w.chunkSize accepted := by
  rcases finish_cases hw.writing s with ⟨error, w₁, s₁, -, hcommit, heq⟩ |
    ⟨w₁, s₁, hlast, hcommit, heq⟩ | ⟨hnone, heq⟩ <;> rw [heq] at hfinish
  · cases hfinish
  · obtain ⟨hbase, hsize, hcovers⟩ := hw.covers_of_commitChunk hlast hcommit
    rw [← hbase, ← hsize]
    exact hcovers.close hfinish
  · exact (hw.covers hnone).close hfinish

theorem failed_of_commitChunk (hcommit : w.commitChunk s = (.error error, w', s')) :
    w'.state ≠ .writing := by
  obtain ⟨rfl, -⟩ := eq_of_commitChunk_error hcommit
  exact WriterState.noConfusion

theorem failed_of_fill {count : Nat} (hfill : fill count w data s = (.error error, w', s')) :
    w'.state ≠ .writing := by
  induction count generalizing w data s with
  | zero => cases hfill
  | succ count ih =>
    rcases fill_succ_cases count w data s with ⟨error', w₁, s₁, hcommit, heq⟩ |
      ⟨w₁, s₁, hcommit, heq⟩ <;> rw [heq] at hfill
    · cases hfill
      exact failed_of_commitChunk hcommit
    · exact ih hfill

/-- A write that fails leaves no writer that is writing. -/
theorem failed_of_write (hwrite : w.write data s = (.error error, w', s')) :
    w'.state ≠ .writing := by
  by_cases hwriting : w.state = .writing
  · rw [write_of_writing hwriting] at hwrite
    exact failed_of_fill hwrite
  · obtain ⟨error', heq⟩ := write_of_not_writing hwriting data s
    rw [heq] at hwrite
    cases hwrite
    exact hwriting

/-- A value that cannot be closed gets no manifest. -/
theorem failed_of_close (hclose : w.close s = (.error error, w', s')) :
    w'.state ≠ .writing ∧ s'.contents = s.contents := by
  obtain ⟨rfl, hcontents⟩ := eq_of_close_error hclose
  exact ⟨WriterState.noConfusion, hcontents⟩

/-- Finishing that fails leaves no writer that is writing, and the manifest as it
was. -/
theorem failed_of_finish (hfinish : w.finish s = (.error error, w', s')) :
    w'.state ≠ .writing ∧ s'.contents[w.base]? = s.contents[w.base]? := by
  by_cases hwriting : w.state = .writing
  · have hcalls := calls_commitChunk w s
    rcases finish_cases hwriting s with ⟨error', w₁, s₁, -, hcommit, heq⟩ |
      ⟨w₁, s₁, -, hcommit, heq⟩ | ⟨-, heq⟩ <;> rw [heq] at hfinish
    · cases hfinish
      rw [(eq_of_commitChunk_error hcommit).2]
      exact ⟨failed_of_commitChunk hcommit, rfl⟩
    · rw [hcommit] at hcalls
      obtain ⟨hfailed, hcontents⟩ := failed_of_close hfinish
      rw [hcontents]
      exact ⟨hfailed, hcalls.getElem?_eq fun _ hcall => hcall.not_alters_base⟩
    · obtain ⟨hfailed, hcontents⟩ := failed_of_close hfinish
      rw [hcontents]
      exact ⟨hfailed, rfl⟩
  · obtain ⟨error', heq⟩ := finish_of_not_writing hwriting s
    rw [heq] at hfinish
    cases hfinish
    exact ⟨hwriting, rfl⟩

/-! ### The first chunk -/

theorem Covers.committed_ne_zero (hw : w.Covers s.contents accepted)
    (hfits : accepted.length < UInt64.size) : w.committed ≠ 0 := by
  intro hzero
  have hcount := toNat_chunks_manifestOf w.chunkSize hfits
  have hpos : 1 ≤ chunkCount w.chunkSize.toNat accepted.length := Nat.le_max_left _ _
  rw [hw.chunks_manifestOf, hzero, UInt64.toNat_zero] at hcount
  omega

theorem Covers.tells_close (hw : w.Covers s.contents accepted)
    (hfits : accepted.length < UInt64.size) (htells : s.Tells (chunkKey w.base 0)) :
    (w.close s).2.2.Tells (chunkKey w.base 0) := by
  refine (calls_close w s).tells ?_ htells
  rintro call (hchunk | ⟨value, rfl⟩ | ⟨index, hindex, rfl⟩) heq
  · exact hchunk.ne_remove heq
  · cases heq
  · have hzero : index = 0 := (chunkKey_injective (Call.remove.inj heq)).2
    rw [hzero] at hindex
    exact hw.committed_ne_zero hfits (UInt64.le_antisymm hindex UInt64.zero_le)

/-- Finishing does not remove the first chunk. -/
theorem Holds.tells_finish (hw : w.Holds s.contents accepted)
    (hfits : accepted.length < UInt64.size) (htells : s.Tells (chunkKey w.base 0)) :
    (w.finish s).2.2.Tells (chunkKey w.base 0) := by
  have hcommitted := (calls_commitChunk w s).tells (fun _ hcall => hcall.ne_remove) htells
  rcases finish_cases hw.writing s with ⟨error, w₁, s₁, -, hcommit, heq⟩ |
    ⟨w₁, s₁, hlast, hcommit, heq⟩ | ⟨hnone, heq⟩ <;> rw [heq]
  · rw [hcommit] at hcommitted
    exact hcommitted
  · rw [hcommit] at hcommitted
    obtain ⟨hbase, -, hcovers⟩ := hw.covers_of_commitChunk hlast hcommit
    rw [← hbase] at hcommitted ⊢
    exact hcovers.tells_close hfits hcommitted
  · exact (hw.covers hnone).tells_close hfits htells

end ChunkWriter

end ContentVault
