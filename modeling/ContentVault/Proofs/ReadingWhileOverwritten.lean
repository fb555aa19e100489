import ContentVault.Proofs.AdmittedChunks
import ContentVault.Proofs.Copying
import ContentVault.Proofs.InertWriters
import ContentVault.Proofs.RefusedLoads

/-!
# Reading a value that is being overwritten

A reader goes by the manifest it was opened with, whatever becomes of the value meanwhile.  A
writer of the same key makes its calls between the reads, and so do writers of other keys; what
the reader finds at an index is the old chunk or the new one of that index, or nothing.  So the
reads fail with a corrupt sequence or come to as many bytes as the manifest records, each chunk
one of the two.
-/

namespace ContentVault

open ChunkStore (Calls)

/-! ### The calls of one writer -/

/-- What became of the calls that were made between two states of a store, in order. -/
def ChunkStore.eventsSince (s t : ChunkStore) : List Event :=
  (t.history.take (t.history.length - s.history.length)).reverse

theorem ChunkStore.Calls.of_mem_eventsSince {Allowed : Call → Prop} {s t : ChunkStore}
    {event : Event} (hcalls : Calls Allowed s t) (hmem : event ∈ s.eventsSince t) :
    Allowed event.call := by
  obtain ⟨events, hhistory, hallowed⟩ := hcalls.exists_history
  rw [eventsSince, hhistory, List.length_append, Nat.add_sub_cancel, List.take_left,
    List.mem_reverse] at hmem
  exact hallowed event hmem

/-- The bytes that a writer is given before it is first asked to finish. -/
def WriterCall.givenData : List WriterCall → Bytes
  | [] => []
  | .feed input :: calls => input.data ++ givenData calls
  | .finish :: _ => []

/-- A store once a writer was begun in it, was asked for all this and was given up. -/
def ChunkWriter.perform (base : String) (chunkSize : ChunkSize) (calls : List WriterCall)
    (s : ChunkStore) : ChunkStore :=
  match ChunkWriter.create base chunkSize s with
  | (.error _, s) => s
  | (.ok w, s) =>
    let (_, w, s) := WriterCall.performAll calls w s
    w.drop s

/-- These may be the first calls of such a writer, whatever its store holds and refuses. -/
def MadeBy (base : String) (chunkSize : ChunkSize) (calls : List WriterCall)
    (events : List Event) : Prop :=
  ∃ s : ChunkStore, events <+: s.eventsSince (ChunkWriter.perform base chunkSize calls s)

/-- A call that writing a value may make: one for its manifest, one that removes a chunk, or one
that stores a chunk of the value. -/
def Call.Writes (base : String) (size : Nat) (value : Bytes) (call : Call) : Prop :=
  call.key = base ∨ (∃ index, call = .remove (chunkKey base index)) ∨
    ∃ i < chunkCount size value.length, call = chunkCall base size value i

section Writes

variable {base : String} {size : Nat} {value accepted data : Bytes} {call : Call}

/-- A chunk that is full is a chunk of all values that go on after it. -/
theorem writes_chunkCall_of_full {i : Nat} (base : String) (more : Bytes)
    (hi : i < accepted.length / size) :
    (chunkCall base size accepted i).Writes base size (accepted ++ more) := by
  have hfull : (i + 1) * size ≤ accepted.length :=
    Nat.le_trans (Nat.mul_le_mul_right size hi) (Nat.div_mul_le_self _ _)
  have hlt : i < chunkCount size (accepted ++ more).length :=
    calc i < accepted.length / size := hi
      _ ≤ (accepted ++ more).length / size := div_length_le_append accepted more size
      _ ≤ chunkCount size (accepted ++ more).length := ChunkWriter.div_le_chunkCount _ _
  refine .inr (.inr ⟨i, hlt, ?_⟩)
  rw [chunkCall, chunkCall, piece_append more hfull]

theorem calls_chunkCalls {first last : Nat} (s : ChunkStore)
    (hwrites : ∀ i < last, (chunkCall base size accepted i).Writes base size value) :
    Calls (Call.Writes base size value) s
      (s.afterAll (chunkCalls base size accepted (List.range' first (last - first)))) := by
  apply ChunkStore.calls_afterAll
  intro call hmem
  obtain ⟨i, hi, rfl⟩ := List.mem_map.1 hmem
  rw [List.mem_range'_1] at hi
  exact hwrites i (by omega)

theorem calls_removeCalls (indices : List Nat) (s : ChunkStore) :
    Calls (Call.Writes base size value) s (s.afterAll (removeCalls base indices)) := by
  apply ChunkStore.calls_afterAll
  intro call hmem
  obtain ⟨i, -, rfl⟩ := List.mem_map.1 hmem
  exact .inr (.inl ⟨.ofNat i, rfl⟩)

end Writes

namespace ChunkWriter

variable {base : String} {chunkSize : ChunkSize} {replaced : UInt64} {accepted value : Bytes}
  {calls : List WriterCall} {w : ChunkWriter}

/-- A writer and its store have come on by calls of its value.  The writer has yet to be given
the rest of the value, or it is not writing any more. -/
structure Proceeds (base : String) (chunkSize : ChunkSize) (replaced : UInt64)
    (value rest : Bytes) (s : ChunkStore) (outcome : ChunkWriter × ChunkStore) : Prop where
  calls : Calls (Call.Writes base chunkSize.toNat value) s outcome.2
  writer : outcome.1.state ≠ .writing ∨
    ∃ accepted, value = accepted ++ rest ∧ outcome.1 = writing base chunkSize replaced accepted

theorem proceeds_write (data rest : Bytes) (s : ChunkStore) :
    Proceeds base chunkSize replaced (accepted ++ data ++ rest) rest s
      ((writing base chunkSize replaced accepted).write data s).2 := by
  have hfills := write_writing base chunkSize replaced accepted data s
  generalize (writing base chunkSize replaced accepted).write data s = outcome at hfills
  cases hfills with
  | taken t hstored hserved =>
    rw [hstored]
    exact ⟨calls_chunkCalls s fun i hi => writes_chunkCall_of_full base rest hi,
      .inr ⟨_, rfl, rfl⟩⟩
  | @refused i refusal failed u hfirst hlast hbefore hserved hrefused hfailed =>
    have hcalls : Calls (Call.Writes base chunkSize.toNat (accepted ++ data ++ rest)) s u := by
      rw [hbefore]
      exact calls_chunkCalls s fun j hj =>
        writes_chunkCall_of_full base rest (Nat.lt_trans hj hlast)
    refine ⟨hcalls.trans (Calls.single (writes_chunkCall_of_full base rest hlast)), .inl ?_⟩
    rw [hfailed]
    exact WriterState.noConfusion

theorem proceeds_finish (base : String) (chunkSize : ChunkSize) (replaced : UInt64) (rest : Bytes)
    (hfits : value.length < UInt64.size) (s : ChunkStore) :
    Proceeds base chunkSize replaced value rest s
      ((writing base chunkSize replaced value).finish s).2 := by
  obtain ⟨count, hfull, hcount, hcompletes⟩ :=
    finish_writing_completes base chunkSize replaced value s
  rw [hcount hfits] at hcompletes
  have hchunks {last : Nat} (hlast : last ≤ chunkCount chunkSize.toNat value.length) :
      ∀ i < last, (chunkCall base chunkSize.toNat value i).Writes base chunkSize.toNat value :=
    fun i hi => .inr (.inr ⟨i, Nat.lt_of_lt_of_le hi hlast, rfl⟩)
  generalize (writing base chunkSize replaced value).finish s = outcome at hcompletes
  cases hcompletes with
  | @refused i refusal call failed u hfirst hcall hbefore hserved hrefused hfailed =>
    have hlast : i ≤ chunkCount chunkSize.toNat value.length ∧
        call.Writes base chunkSize.toNat value := by
      rcases hcall with ⟨hi, rfl⟩ | ⟨rfl, rfl⟩
      · exact ⟨Nat.le_of_lt hi, .inr (.inr ⟨i, hi, rfl⟩)⟩
      · exact ⟨Nat.le_refl _, .inl rfl⟩
    rw [hbefore]
    refine ⟨(calls_chunkCalls s (hchunks hlast.1)).trans (Calls.single hlast.2), .inl ?_⟩
    rw [hfailed]
    exact WriterState.noConfusion
  | closed u hstored hserved hmanifest =>
    have hcalls : Calls (Call.Writes base chunkSize.toNat value) s u := by
      rw [hstored]
      exact calls_chunkCalls s (hchunks (Nat.le_refl _))
    exact ⟨(hcalls.trans (Calls.single (.inl rfl))).trans (calls_removeCalls _ _),
      .inl WriterState.noConfusion⟩

/-- As the end of a byte stream a writer takes bytes as it takes them otherwise. -/
theorem perform_stream (w : ChunkWriter) (data : Bytes) (s : ChunkStore) :
    ((WriterCall.feed (.stream data)).perform w s).2 = (w.write data s).2 := by
  rcases hwrite : w.write data s with ⟨error | _, w', s'⟩
  · rw [WriterCall.perform_of_write_error (.inr rfl) hwrite]
  · rw [WriterCall.perform_of_write_ok (.inr rfl) hwrite]

theorem proceeds_perform (call : WriterCall)
    (hvalue : value = accepted ++ WriterCall.givenData (call :: calls))
    (hfits : value.length < UInt64.size) (s : ChunkStore) :
    Proceeds base chunkSize replaced value (WriterCall.givenData calls) s
      (call.perform (writing base chunkSize replaced accepted) s).2 := by
  cases call with
  | finish =>
    rw [WriterCall.givenData, List.append_nil] at hvalue
    rw [← hvalue]
    exact proceeds_finish base chunkSize replaced _ hfits s
  | feed input =>
    rw [WriterCall.givenData, ← List.append_assoc] at hvalue
    rw [hvalue]
    cases input with
    | write data => exact proceeds_write data _ s
    | stream data =>
      rw [perform_stream]
      exact proceeds_write data _ s
    | flush =>
      rw [WriterInput.data, List.append_nil]
      exact ⟨Calls.refl s, .inr ⟨accepted, rfl, rfl⟩⟩

/-- Whatever a writer is asked before it is finished, it makes calls of the value it is given. -/
theorem calls_performAll (hvalue : value = accepted ++ WriterCall.givenData calls)
    (hfits : value.length < UInt64.size) (s : ChunkStore) :
    Calls (Call.Writes base chunkSize.toNat value) s
      (WriterCall.performAll (calls ++ [.finish])
        (writing base chunkSize replaced accepted) s).2.2 := by
  induction calls generalizing accepted s with
  | nil =>
    rw [WriterCall.givenData, List.append_nil] at hvalue
    rw [← hvalue]
    exact (proceeds_finish base chunkSize replaced [] hfits s).calls
  | cons call calls ih =>
    have hturn : Proceeds base chunkSize replaced value (WriterCall.givenData calls) s
        (call.perform (writing base chunkSize replaced accepted) s).2 :=
      proceeds_perform call hvalue hfits s
    rcases hperform : call.perform (writing base chunkSize replaced accepted) s with ⟨reply, w, t⟩
    rw [hperform] at hturn
    rw [List.cons_append, WriterCall.performAll_cons hperform]
    rcases hturn.writer with hstate | ⟨accepted', hvalue', rfl⟩
    · obtain ⟨error, hensure⟩ := ensureWriting_of_not_writing hstate
      rw [WriterCall.performAll_of_not_writing hensure]
      exact hturn.calls
    · exact hturn.calls.trans (ih hvalue' t)

theorem calls_perform (base : String) (chunkSize : ChunkSize) (calls : List WriterCall)
    (hfits : (WriterCall.givenData calls).length < UInt64.size) (s : ChunkStore) :
    Calls (Call.Writes base chunkSize.toNat (WriterCall.givenData calls)) s
      (perform base chunkSize calls s) := by
  have hbegin : Calls (Call.Writes base chunkSize.toNat (WriterCall.givenData calls)) s
      (create base chunkSize s).2 := by
    apply (calls_create base chunkSize s).mono
    rintro call (rfl | rfl) <;> exact .inl rfl
  rw [perform]
  rcases hcreate : create base chunkSize s with ⟨error | w, t⟩ <;> rw [hcreate] at hbegin
  · exact hbegin
  · obtain ⟨⟨replaced, hwriter⟩, -⟩ := eq_of_create_ok hcreate
    rw [← writing_nil] at hwriter
    subst hwriter
    have hcalls : Calls _ t (WriterCall.performAll (calls ++ [.finish])
        (writing base chunkSize replaced []) t).2.2 := calls_performAll rfl hfits t
    rw [← drop_performAll] at hcalls
    exact hbegin.trans hcalls

end ChunkWriter

theorem MadeBy.writes {base : String} {chunkSize : ChunkSize} {calls : List WriterCall}
    {events : List Event} (hmade : MadeBy base chunkSize calls events)
    (hfits : (WriterCall.givenData calls).length < UInt64.size) {event : Event}
    (hmem : event ∈ events) :
    event.call.Writes base chunkSize.toNat (WriterCall.givenData calls) := by
  obtain ⟨s, hbegins⟩ := hmade
  exact (ChunkWriter.calls_perform base chunkSize calls hfits s).of_mem_eventsSince
    (hbegins.subset hmem)

/-- So a writer keeps to the keys of its own value. -/
theorem MadeBy.within {base : String} {chunkSize : ChunkSize} {calls : List WriterCall}
    {events : List Event} (hmade : MadeBy base chunkSize calls events)
    (hfits : (WriterCall.givenData calls).length < UInt64.size) {event : Event}
    (hmem : event ∈ events) : event.call.Within base := by
  rcases hmade.writes hfits hmem with hkey | ⟨index, hcall⟩ | ⟨i, -, hcall⟩
  · exact .inl hkey
  · rw [hcall]
    exact .chunk base index
  · rw [hcall]
    exact .chunk base (.ofNat i)

/-! ### A reader that finds something else each time -/

/-- Under the keys of the first chunks lies nothing but what may be found at their index. -/
def Contents.HoldsAtMost (contents : Contents) (base : String) (count : Nat)
    (Found : Nat → Bytes → Prop) : Prop :=
  ∀ i < count, ∀ chunk, contents[chunkKey base (.ofNat i)]? = some chunk → Found i chunk

theorem Contents.HoldsAtMost.apply {contents : Contents} {base : String} {count : Nat}
    {Found : Nat → Bytes → Prop} {call : Call} (hholds : contents.HoldsAtMost base count Found)
    (hcall : ∀ i < count, ∀ chunk, call = .store (chunkKey base (.ofNat i)) chunk → Found i chunk) :
    (call.apply contents).HoldsAtMost base count Found := by
  intro i hi chunk hchunk
  by_cases halters : call.Alters (chunkKey base (.ofNat i))
  · rcases halters with ⟨value, rfl⟩ | rfl
    · rw [Call.apply, Std.ExtTreeMap.getElem?_insert_self] at hchunk
      exact Option.some.inj hchunk ▸ hcall i hi value rfl
    · rw [Call.apply, Std.ExtTreeMap.getElem?_erase_self] at hchunk
      cases hchunk
  · rw [Call.getElem?_apply halters] at hchunk
    exact hholds i hi chunk hchunk

namespace ChunkReader

/-- The reader has loaded these chunks, each one that may be found at its index, and has handed
out these bytes of them. -/
structure Gathered (base : String) (manifest : Manifest) (Found : Nat → Bytes → Prop)
    (chunks : List Bytes) (handed : Bytes) (r : ChunkReader) : Prop where
  found : ∀ i (hi : i < chunks.length), Found i chunks[i]
  admitted : manifest.AdmitsAll chunks
  bytes : chunks.flatten = handed ++ r.pending
  nextIndex : r.nextIndex = .ofNat chunks.length
  delivered : r.delivered = .ofNat handed.length
  manifest : r.manifest = manifest
  base : r.base = base

/-- All chunks are loaded and handed out, and they have the length that the manifest records. -/
structure Ended (manifest : Manifest) (chunks : List Bytes) (handed : Bytes) : Prop where
  length : chunks.length = manifest.chunks.toNat
  bytes : handed = chunks.flatten
  total : UInt64.ofNat handed.length = manifest.length

variable {base : String} {manifest : Manifest} {Found : Nat → Bytes → Prop} {chunks : List Bytes}
  {handed : Bytes} {r : ChunkReader} {s : ChunkStore}

theorem gathered_past : Gathered base manifest Found [] [] (past base manifest []) where
  found := fun _ hi => absurd hi (Nat.not_lt_zero _)
  admitted := Manifest.admitsAll_nil
  bytes := rfl
  nextIndex := rfl
  delivered := rfl
  manifest := rfl
  base := rfl

theorem Gathered.eq_past (hgathered : Gathered base manifest Found chunks handed r)
    (hpending : r.pending = []) : handed = chunks.flatten ∧ r = past base manifest chunks := by
  obtain ⟨-, -, hbytes, hnext, hdelivered, rfl, rfl⟩ := hgathered
  rw [hpending, List.append_nil] at hbytes
  subst hbytes
  refine ⟨rfl, ?_⟩
  cases r
  simp_all [past]

/-- One more chunk is gathered where it is admitted and may be found. -/
theorem Gathered.take (hgathered : Gathered base manifest Found chunks handed r)
    (hpending : r.pending = []) {chunk : Bytes} (hmore : chunks.length < manifest.chunks.toNat)
    (hadmits : manifest.Admits chunks.length chunk.length) (hfound : Found chunks.length chunk) :
    Gathered base manifest Found (chunks ++ [chunk]) handed (r.take chunk) where
  found := by
    intro i hi
    by_cases hbefore : i < chunks.length
    · rw [List.getElem_append_left hbefore]
      exact hgathered.found i hbefore
    · rw [List.length_append, List.length_singleton] at hi
      obtain rfl : i = chunks.length := by omega
      rw [List.getElem_concat_length rfl]
      exact hfound
  admitted := Manifest.admitsAll_concat.2 ⟨hgathered.admitted, hmore, hadmits⟩
  bytes := by
    rw [List.flatten_append, List.flatten_singleton, hgathered.bytes, hpending, List.append_nil]
    rfl
  nextIndex := by
    rw [ChunkReader.take, hgathered.nextIndex, List.length_append, List.length_singleton,
      UInt64.ofNat_add]
    rfl
  delivered := hgathered.delivered
  manifest := hgathered.manifest
  base := hgathered.base

/-- The next chunk is one that may be found; otherwise the sequence is corrupt, or it is at its
end. -/
theorem Gathered.nextChunk (hgathered : Gathered base manifest Found chunks handed r)
    (hpending : r.pending = []) (hloads : s.ServesLoads)
    (hholds : s.contents.HoldsAtMost base manifest.chunks.toNat Found) :
    match (r.nextChunk s).1 with
    | .error error => ∃ corruption, error = .corruptChunkSequence base corruption
    | .ok none => Ended manifest chunks handed
    | .ok (some chunk) =>
      Gathered base manifest Found (chunks ++ [chunk]) handed (r.take chunk) := by
  obtain ⟨hhanded, hpast⟩ := hgathered.eq_past hpending
  rcases Nat.lt_or_eq_of_le hgathered.admitted.length_le with hmore | hall
  · have hnext := nextChunk_past base hloads hmore
    rw [← hpast] at hnext
    cases hfound : s.contents[chunkKey base (.ofNat chunks.length)]? with
    | none =>
      rw [hfound] at hnext
      rw [hnext]
      exact ⟨_, rfl⟩
    | some chunk =>
      rw [hfound] at hnext
      by_cases hadmits : manifest.Admits chunks.length chunk.length
      · simp only [if_pos hadmits] at hnext
        rw [hnext]
        exact hgathered.take hpending hmore hadmits (hholds _ hmore chunk hfound)
      · simp only [if_neg hadmits] at hnext
        rw [hnext]
        exact ⟨_, rfl⟩
  · have hnext := nextChunk_past_all base s hall
    rw [← hpast] at hnext
    by_cases htotal : UInt64.ofNat chunks.flatten.length = manifest.length
    · rw [if_pos htotal] at hnext
      rw [hnext]
      exact ⟨hall, hhanded, hhanded ▸ htotal⟩
    · rw [if_neg htotal] at hnext
      rw [hnext]
      exact ⟨_, rfl⟩

/-- Refilling gathers chunks until there are bytes to hand out. -/
theorem Gathered.refill (hgathered : Gathered base manifest Found chunks handed r)
    (hloads : s.ServesLoads) (hholds : s.contents.HoldsAtMost base manifest.chunks.toNat Found) :
    ∃ chunks', Gathered base manifest Found chunks' handed (r.refill s).2.1 ∧
      match (r.refill s).1 with
      | .error error => ∃ corruption, error = .corruptChunkSequence base corruption
      | .ok _ => (r.refill s).2.1.pending = [] → Ended manifest chunks' handed := by
  fun_induction ChunkReader.refill r s generalizing chunks with
  | case1 r s hpending => exact ⟨chunks, hgathered, fun hnil => absurd hnil hpending⟩
  | case2 r s hpending s' error hnext =>
    have hgot := hgathered.nextChunk (Decidable.not_not.1 hpending) hloads hholds
    rw [hnext] at hgot
    exact ⟨chunks, hgathered, hgot⟩
  | case3 r s hpending s' hnext =>
    have hgot := hgathered.nextChunk (Decidable.not_not.1 hpending) hloads hholds
    rw [hnext] at hgot
    exact ⟨chunks, hgathered, fun _ => hgot⟩
  | case4 r s hpending s' chunk hnext ih =>
    have hgot := hgathered.nextChunk (Decidable.not_not.1 hpending) hloads hholds
    have hcalls := calls_nextChunk r s
    rw [hnext] at hgot hcalls
    apply ih hgot
    · rw [ChunkStore.ServesLoads, hcalls.plan_eq]
      exact hloads
    · rw [hcalls.contents_eq_of_isLoad]
      exact hholds

theorem Gathered.hand (hgathered : Gathered base manifest Found chunks handed r) (size : Nat) :
    Gathered base manifest Found chunks (handed ++ r.pending.take size) (r.hand size) where
  found := hgathered.found
  admitted := hgathered.admitted
  bytes := by
    rw [hgathered.bytes, List.append_assoc, ChunkReader.hand, List.take_append_drop]
  nextIndex := hgathered.nextIndex
  delivered := by
    rw [ChunkReader.hand, hgathered.delivered, List.length_append, UInt64.ofNat_add]
  manifest := hgathered.manifest
  base := hgathered.base

/-- A read hands out bytes of the chunks that are gathered.  It fails only for a corrupt
sequence, and finds the end only behind all of them. -/
theorem Gathered.read (hgathered : Gathered base manifest Found chunks handed r)
    (hloads : s.ServesLoads) (hholds : s.contents.HoldsAtMost base manifest.chunks.toNat Found)
    (size : Nat) :
    ∃ chunks', Gathered base manifest Found chunks' (handed ++ handedOut [(r.read size s).1])
        (r.read size s).2.1 ∧
      match (r.read size s).1 with
      | .error failure =>
        ∃ corruption, failure = .carrying .other (.corruptChunkSequence base corruption)
      | .ok bytes => 0 < size → bytes = [] → Ended manifest chunks' handed := by
  rcases Nat.eq_zero_or_pos size with rfl | hsize
  · rw [read_zero]
    refine ⟨chunks, ?_, fun hpos => absurd hpos (Nat.lt_irrefl 0)⟩
    simpa using hgathered
  · obtain ⟨chunks', hgathered', hresult⟩ := hgathered.refill hloads hholds
    rcases hrefill : r.refill s with ⟨error | _, r', t⟩ <;> rw [hrefill] at hgathered' hresult
    · obtain ⟨corruption, rfl⟩ := hresult
      rw [read_of_refill_error hsize hrefill]
      refine ⟨chunks', ?_, corruption, rfl⟩
      simpa using hgathered'
    · rw [read_of_refill_ok hsize hrefill]
      refine ⟨chunks', ?_, fun _ hnil => hresult ?_⟩
      · simpa using hgathered'.hand size
      · exact (List.take_eq_nil_iff.1 hnil).resolve_left (Nat.ne_of_gt hsize)

/-- Only the last chunk may be empty, so that no refill looks for two chunks. -/
theorem length_history_refill_le (hsize : r.manifest.chunkSize ≠ 0) (s : ChunkStore) :
    (r.refill s).2.2.history.length ≤ s.history.length + 1 := by
  have hcalls : (r.nextChunk s).2.history.length ≤ s.history.length + 1 := by
    by_cases hlast : r.nextIndex = r.manifest.chunks
    · rw [nextChunk_of_last hlast]
      exact Nat.le_succ _
    · rw [nextChunk_of_more hlast]
      exact Nat.le_refl _
  by_cases hpending : r.pending = []
  · rw [refill_of_pending_nil hpending]
    rcases hnext : r.nextChunk s with ⟨error | _ | chunk, t⟩ <;> rw [hnext] at hcalls
    · exact hcalls
    · exact hcalls
    · by_cases hchunk : chunk = []
      · subst hchunk
        have hlast := nextIndex_take_nil hsize hnext
        have hstays : ((r.take []).refill t).2.2 = t := by
          rw [refill_of_pending_nil rfl, nextChunk_of_last hlast]
          split <;> rename_i heq <;> split at heq <;> cases heq <;> rfl
        simp only [hstays]
        exact hcalls
      · simp only [refill_of_pending (r := r.take chunk) hchunk]
        exact hcalls
  · rw [refill_of_pending hpending]
    exact Nat.le_succ _

/-- A read makes at most one call, so that others make theirs between the reads. -/
theorem length_history_read_le (hsize : r.manifest.chunkSize ≠ 0) (size : Nat) (s : ChunkStore) :
    (r.read size s).2.2.history.length ≤ s.history.length + 1 := by
  have hrefill := length_history_refill_le hsize s
  rw [read]
  split
  · exact Nat.le_succ _
  · split <;> rename_i heq <;> rw [heq] at hrefill <;> exact hrefill

end ChunkReader

/-! ### Turns of the reader and of the writers -/

/-- The store once a call was made of which it is known whether it was served. -/
def ChunkStore.replay (event : Event) (s : ChunkStore) : ChunkStore where
  contents := if event.served then event.call.apply s.contents else s.contents
  plan := s.plan
  tally := s.tally.count event.call
  history := event :: s.history

/-- A reader, the store that it shares with writers, and what its reads have come to. -/
structure SharedReading where
  reader : ChunkReader
  store : ChunkStore
  outcomes : List (Except IoError Bytes)

namespace SharedReading

open ChunkReader (handedOut)

inductive Turn where
  /-- The writer of the same key has made a call. -/
  | own (event : Event)
  /-- A writer of that content key has made a call. -/
  | elsewhere (key : ContentKey) (event : Event)
  /-- The reader is asked for so many bytes. -/
  | read (size : Nat)

def Turn.event? : Turn → Option Event
  | .own event => some event
  | .elsewhere _ event => some event
  | .read _ => none

def ownEvents (turns : List Turn) : List Event :=
  turns.filterMap fun
    | .own event => some event
    | _ => none

def step (o : SharedReading) : Turn → SharedReading
  | .own event => { o with store := o.store.replay event }
  | .elsewhere _ event => { o with store := o.store.replay event }
  | .read size =>
    let (outcome, r, s) := o.reader.read size o.store
    ⟨r, s, o.outcomes ++ [outcome]⟩

def run (turns : List Turn) (o : SharedReading) : SharedReading :=
  turns.foldl step o

/-- The chunk is that of the old value at the index, or that of the new one. -/
def OldOrNew (old : List Bytes) (size : Nat) (value : Bytes) (i : Nat) (chunk : Bytes) : Prop :=
  old[i]? = some chunk ∨ i < chunkCount size value.length ∧ chunk = piece size value i

/-- The reader has gathered chunks that may be found at their index, and will find no others
whatever is stored under the keys of the value meanwhile. -/
structure Underway (base : String) (manifest : Manifest) (Found : Nat → Bytes → Prop)
    (o : SharedReading) : Prop where
  loads : o.store.ServesLoads
  holds : o.store.contents.HoldsAtMost base manifest.chunks.toNat Found
  gathered : ∃ chunks, o.reader.Gathered base manifest Found chunks (handedOut o.outcomes)
  failures : ∀ failure, .error failure ∈ o.outcomes →
    ∃ corruption, failure = .carrying .other (.corruptChunkSequence base corruption)

section Underway

variable {base : String} {manifest : Manifest} {Found : Nat → Bytes → Prop} {o : SharedReading}

theorem Underway.replay {event : Event} (hunderway : Underway base manifest Found o)
    (hstores : ∀ i < manifest.chunks.toNat, ∀ chunk,
      event.call = .store (chunkKey base (.ofNat i)) chunk → Found i chunk) :
    Underway base manifest Found { o with store := o.store.replay event } where
  loads := hunderway.loads
  holds := by
    rw [ChunkStore.replay]
    split
    · exact hunderway.holds.apply hstores
    · exact hunderway.holds
  gathered := hunderway.gathered
  failures := hunderway.failures

theorem step_read (o : SharedReading) (size : Nat) :
    o.step (.read size) = ⟨(o.reader.read size o.store).2.1, (o.reader.read size o.store).2.2,
      o.outcomes ++ [(o.reader.read size o.store).1]⟩ := rfl

theorem Underway.read (hunderway : Underway base manifest Found o) (size : Nat) :
    Underway base manifest Found (o.step (.read size)) := by
  obtain ⟨chunks, hgathered⟩ := hunderway.gathered
  obtain ⟨chunks', hgathered', hresult⟩ := hgathered.read hunderway.loads hunderway.holds size
  have hcalls := ChunkReader.calls_read o.reader size o.store
  rw [step_read]
  constructor
  · rw [ChunkStore.ServesLoads, hcalls.plan_eq]
    exact hunderway.loads
  · rw [hcalls.contents_eq_of_isLoad]
    exact hunderway.holds
  · rw [ChunkReader.handedOut_append]
    exact ⟨chunks', hgathered'⟩
  · intro failure hmem
    rcases List.mem_append.1 hmem with hmem | hmem
    · exact hunderway.failures failure hmem
    · rw [← List.mem_singleton.1 hmem] at hresult
      exact hresult

/-- Every turn keeps to chunks that may be found. -/
theorem Underway.step (hunderway : Underway base manifest Found o) {turn : Turn}
    (hstores : ∀ event, turn.event? = some event → ∀ i < manifest.chunks.toNat, ∀ chunk,
      event.call = .store (chunkKey base (.ofNat i)) chunk → Found i chunk) :
    Underway base manifest Found (o.step turn) := by
  cases turn with
  | own event => exact hunderway.replay (hstores event rfl)
  | elsewhere key event => exact hunderway.replay (hstores event rfl)
  | read size => exact hunderway.read size

theorem Underway.run {turns : List Turn} (hunderway : Underway base manifest Found o)
    (hstores : ∀ turn ∈ turns, ∀ event, turn.event? = some event →
      ∀ i < manifest.chunks.toNat, ∀ chunk,
        event.call = .store (chunkKey base (.ofNat i)) chunk → Found i chunk) :
    Underway base manifest Found (run turns o) := by
  induction turns generalizing o with
  | nil => exact hunderway
  | cons turn turns ih =>
    rw [List.forall_mem_cons] at hstores
    exact ih (hunderway.step hstores.1) hstores.2

/-- Who finds the end has been handed as many bytes as the manifest records, and in each place
one of the chunks that may be found there. -/
theorem Underway.ended (hunderway : Underway base manifest Found o)
    (hroom : (manifest.chunks.toNat - 1) * manifest.chunkSize.toNat ≤ manifest.length.toNat)
    {size : Nat} (hsize : 0 < size) (hend : (o.reader.read size o.store).1 = .ok []) :
    (handedOut o.outcomes).length = manifest.length.toNat ∧
      ∀ i < manifest.chunks.toNat,
        Found i (piece manifest.chunkSize.toNat (handedOut o.outcomes) i) := by
  obtain ⟨chunks, hgathered⟩ := hunderway.gathered
  obtain ⟨chunks', hgathered', hresult⟩ := hgathered.read hunderway.loads hunderway.holds size
  rw [hend] at hresult
  obtain ⟨hall, hbytes, htotal⟩ := hresult hsize rfl
  rw [hbytes] at htotal ⊢
  refine ⟨hgathered'.admitted.length_eq_of_word_eq hall hroom htotal, fun i hi => ?_⟩
  rw [← hall] at hi
  rw [hgathered'.admitted.piece_flatten hi]
  exact hgathered'.found i hi

end Underway

section Stores

variable {base : String} {value chunk : Bytes} {i : Nat}

/-- What a writer stores under the key of a chunk is its own chunk of that index. -/
theorem oldOrNew_of_writes {chunkSize : ChunkSize} (old : List Bytes)
    (hfits : value.length < UInt64.size) (hi : i < UInt64.size)
    (hwrites : Call.Writes base chunkSize.toNat value (.store (chunkKey base (.ofNat i)) chunk)) :
    OldOrNew old chunkSize.toNat value i chunk := by
  have hcount := chunkCount_lt chunkSize.toNat_pos hfits
  rcases hwrites with hkey | ⟨index, heq⟩ | ⟨j, hj, heq⟩
  · exact absurd hkey (chunkKey_ne_self base _)
  · cases heq
  · obtain ⟨hkey, hchunk⟩ := Call.store.inj heq
    obtain rfl := (chunkKey_ofNat_inj hi (Nat.lt_trans hj hcount)).1 hkey
    exact .inr ⟨hj, hchunk⟩

/-- No value of another base key has a chunk among those of this one. -/
theorem not_within_of_ne {other : ContentKey} (hother : other.dataKey ≠ base) (index : UInt64)
    (chunk : Bytes) : ¬Call.Within other.dataKey (.store (chunkKey base index) chunk) := by
  rintro (hkey | ⟨j, hkey⟩)
  · exact dataKey_ne_chunkKey other base index hkey.symm
  · exact hother (chunkKey_injective hkey).1.symm

end Stores

/-- A value is opened and then read while a writer of the same key makes its calls, and others
make theirs for other content keys; no read makes more than one call itself.  Reads fail only for
a corrupt sequence.  What was handed out is always the beginning of chunks that are each the old
or the new one of their index, and who finds the end has been handed as many bytes as the
manifest recorded at first. -/
theorem reads_while_overwritten {s : ChunkStore} {base : String} {manifest : Manifest}
    {old : List Bytes} (chunkSize : ChunkSize) (calls : List WriterCall)
    (hloads : s.ServesLoads) (hrecords : s.contents.Records base manifest)
    (hold : s.contents.BeginsWith base manifest old) (hall : old.length = manifest.chunks.toNat)
    (htotal : (old.map List.length).sum = manifest.length.toNat)
    (hfits : (WriterCall.givenData calls).length < UInt64.size) :
    ∃ r, ChunkReader.create base s = (.ok r, s.after (.load base)) ∧
      ∀ turns, MadeBy base chunkSize calls (ownEvents turns) →
        (∀ key event, .elsewhere key event ∈ turns →
          key.dataKey ≠ base ∧ event.call.Within key.dataKey) →
        let Found := OldOrNew old chunkSize.toNat (WriterCall.givenData calls)
        let o := run turns ⟨r, s.after (.load base), []⟩
        (∀ failure, .error failure ∈ o.outcomes →
          ∃ corruption, failure = .carrying .other (.corruptChunkSequence base corruption)) ∧
        (∃ chunks, manifest.AdmitsAll chunks ∧ (∀ i (hi : i < chunks.length), Found i chunks[i]) ∧
          handedOut o.outcomes <+: chunks.flatten) ∧
        ∀ size, (o.reader.read size o.store).2.2.history.length ≤ o.store.history.length + 1 ∧
          (0 < size → (o.reader.read size o.store).1 = .ok [] →
            (handedOut o.outcomes).length = manifest.length.toNat ∧
            ∀ i < manifest.chunks.toNat,
              Found i (piece manifest.chunkSize.toNat (handedOut o.outcomes) i)) := by
  refine ⟨_, ChunkReader.create_of_records hloads hrecords, fun turns hown helsewhere => ?_⟩
  intro Found o
  have hstart : Underway base manifest Found
      ⟨ChunkReader.past base manifest [], s.after (.load base), []⟩ := by
    refine ⟨hloads, fun i hi chunk hchunk => ?_, ⟨[], ChunkReader.gathered_past⟩, nofun⟩
    rw [← hall] at hi
    rw [ChunkStore.contents_after_load, (hold.holds i hi).present] at hchunk
    exact .inl (by rw [List.getElem?_eq_getElem hi, hchunk])
  have hunderway : Underway base manifest Found o := by
    apply hstart.run
    intro turn hmem event hevent i hi chunk hcall
    cases turn with
    | own event' =>
      cases hevent
      have hwrites := hown.writes hfits (List.mem_filterMap.2 ⟨_, hmem, rfl⟩)
      rw [hcall] at hwrites
      exact oldOrNew_of_writes old hfits (Nat.lt_trans hi manifest.chunks.toNat_lt) hwrites
    | elsewhere key event' =>
      cases hevent
      obtain ⟨hother, hwithin⟩ := helsewhere key event hmem
      rw [hcall] at hwithin
      exact absurd hwithin (not_within_of_ne hother _ chunk)
    | read size => cases hevent
  have hroom : (manifest.chunks.toNat - 1) * manifest.chunkSize.toNat ≤ manifest.length.toNat := by
    rw [← htotal, ← hall, ← List.length_flatten]
    exact hold.admitsAll.length_flatten_bounds.1
  obtain ⟨chunks, hgathered⟩ := hunderway.gathered
  have hsize : o.reader.manifest.chunkSize ≠ 0 := by
    rw [hgathered.manifest]
    exact hrecords.chunkSize_ne_zero
  refine ⟨hunderway.failures, ?_,
    fun size => ⟨?_, fun hpos hend => hunderway.ended hroom hpos hend⟩⟩
  · exact ⟨chunks, hgathered.admitted, hgathered.found, _, hgathered.bytes.symm⟩
  · exact ChunkReader.length_history_read_le hsize size o.store

/-- Three bytes take the place of three others in the middle of a read of two chunks, while a
value is begun under another content key. -/
def mingledTurns : List Turn :=
  [.read 1, .own ⟨.load "b", true⟩, .elsewhere ⟨"x"⟩ ⟨.load "x-data", true⟩,
    .own ⟨.remove "b", true⟩, .read 5, .elsewhere ⟨"x"⟩ ⟨.remove "x-data", true⟩,
    .own ⟨.store "b/0" [7, 8], true⟩, .elsewhere ⟨"x"⟩ ⟨.store "x-data/0" [4], true⟩,
    .own ⟨.store "b/1" [9], true⟩, .read 5]

/-- The reader is handed the old first chunk and the new second one, and then finds the end. -/
theorem reads_while_overwritten_mingledTurns :
    let o := run mingledTurns
      ⟨ChunkReader.past "b" ⟨2, 3, 2⟩ [], twoChunkStore.after (.load "b"), []⟩
    handedOut o.outcomes = [1, 2, 9] ∧ (o.reader.read 5 o.store).1 = .ok [] ∧
      (handedOut o.outcomes).length = 3 ∧
      ∀ i < 2, OldOrNew [[1, 2], [3]] 2 [7, 8, 9] i (piece 2 (handedOut o.outcomes) i) := by
  intro o
  have hloads : twoChunkStore.ServesLoads := fun _ _ => rfl
  have hrecords : twoChunkStore.contents.Records "b" ⟨2, 3, 2⟩ :=
    ⟨⟨_, Std.ExtTreeMap.getElem?_insert_self, Manifest.decode_encode _⟩, by decide⟩
  have hchunks : twoChunkStore.contents.BeginsWith "b" ⟨2, 3, 2⟩ [[1, 2], [3]] :=
    Contents.beginsWith_pair (by decide) ⟨by decide +kernel, by decide⟩
      ⟨by decide +kernel, by decide⟩
  have hmade : MadeBy "b" ⟨2, by decide⟩ [.feed (.write [7, 8]), .feed (.stream [9]), .finish]
      (ownEvents mingledTurns) := ⟨{}, by decide +kernel⟩
  have hother : MadeBy "x-data" ⟨1, by decide⟩ [.feed (.write [4])]
      [⟨.load "x-data", true⟩, ⟨.remove "x-data", true⟩, ⟨.store "x-data/0" [4], true⟩] :=
    ⟨{}, by decide +kernel⟩
  have helsewhere : ∀ key event, .elsewhere key event ∈ mingledTurns →
      key.dataKey ≠ "b" ∧ event.call.Within key.dataKey := by
    intro key event hmem
    obtain ⟨rfl, hevent⟩ : key = ⟨"x"⟩ ∧ event ∈ [⟨.load "x-data", true⟩,
        ⟨.remove "x-data", true⟩, (⟨.store "x-data/0" [4], true⟩ : Event)] := by
      simpa [mingledTurns, ← and_or_left] using hmem
    exact ⟨by decide, hother.within (by decide) hevent⟩
  have hend : (o.reader.read 5 o.store).1 = .ok [] := by
    have hsome : (o.reader.read 5 o.store).1.toOption = some [] := by decide +kernel
    cases hread : (o.reader.read 5 o.store).1 with
    | error failure =>
      rw [hread] at hsome
      cases hsome
    | ok bytes =>
      rw [hread] at hsome
      exact congrArg Except.ok (Option.some.inj hsome)
  obtain ⟨r, hcreate, hreads⟩ := reads_while_overwritten ⟨2, by decide⟩
    [.feed (.write [7, 8]), .feed (.stream [9]), .finish] hloads hrecords hchunks rfl rfl
    (by decide)
  rw [ChunkReader.create_of_records hloads hrecords] at hcreate
  cases hcreate
  obtain ⟨-, -, hends⟩ := hreads mingledTurns hmade helsewhere
  exact ⟨by decide +kernel, hend, (hends 5).2 (by decide) hend⟩

end SharedReading

end ContentVault
