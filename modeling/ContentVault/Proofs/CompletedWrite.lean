import ContentVault.Proofs.ManifestCodec
import ContentVault.Proofs.WriterTrace

/-!
# What a completed write leaves behind

A value that was written and finished lies in the store with its manifest and all its
chunks, whatever the store held before and however the value was cut.  Of the value that
was there before, only chunks that could not be removed are left, and no other key is
touched.
-/

namespace ContentVault

theorem key_of_mem_chunkCalls {base : String} {size : Nat} {value : Bytes} {indices : List Nat}
    {call : Call} (hmem : call ∈ chunkCalls base size value indices) :
    ∃ i ∈ indices, call.key = chunkKey base (.ofNat i) := by
  obtain ⟨i, hi, rfl⟩ := List.mem_map.1 hmem
  exact ⟨i, hi, rfl⟩

theorem key_of_mem_removeCalls {base : String} {indices : List Nat} {call : Call}
    (hmem : call ∈ removeCalls base indices) :
    ∃ i ∈ indices, call.key = chunkKey base (.ofNat i) := by
  obtain ⟨i, hi, rfl⟩ := List.mem_map.1 hmem
  exact ⟨i, hi, rfl⟩

/-- Indices below 2^64 have keys of their own. -/
theorem chunkKey_ofNat_inj {base : String} {i j : Nat} (hi : i < UInt64.size)
    (hj : j < UInt64.size) : chunkKey base (.ofNat i) = chunkKey base (.ofNat j) ↔ i = j := by
  rw [chunkKey_inj, and_iff_right rfl, ← UInt64.toNat_inj, UInt64.toNat_ofNat_of_lt' hi,
    UInt64.toNat_ofNat_of_lt' hj]

namespace ChunkStore

variable {calls before after : List Call} {call : Call} {key : String} {s : ChunkStore}

theorem getElem?_afterAll_of_key_ne (hcalls : ∀ call ∈ calls, call.key ≠ key) (s : ChunkStore) :
    (s.afterAll calls).contents[key]? = s.contents[key]? := by
  apply getElem?_afterAll
  intro call hmem halters
  exact hcalls call hmem (Call.key_eq_of_alters halters)

/-- The last call for a key decides what it holds. -/
theorem getElem?_afterAll_last (before : List Call) (call : Call)
    (hafter : ∀ call ∈ after, call.key ≠ key) (s : ChunkStore) :
    (s.afterAll (before ++ call :: after)).contents[key]? =
      ((s.afterAll before).after call).contents[key]? := by
  rw [afterAll_append, afterAll_cons, getElem?_afterAll_of_key_ne hafter]

theorem mem_events_around (before after : List Call) (call : Call) (s : ChunkStore) :
    ⟨call, ((s.afterAll before).refusal? call).isNone⟩ ∈ s.events (before ++ call :: after) := by
  rw [events_append, List.mem_append]
  exact .inr List.mem_cons_self

end ChunkStore

/-- How a store that writes a value in place of one with so many chunks goes over into
another, by the events in between. -/
structure Overwrites (base : String) (chunkSize : ChunkSize) (value : Bytes) (recorded : Nat)
    (events : List Event) (s t : ChunkStore) : Prop where
  /-- The calls are those of the layout, in order. -/
  calls : events.map Event.call = layoutCalls base chunkSize value recorded
  history : t.history = events.reverse ++ s.history
  manifest : t.contents[base]? = some (manifestOf chunkSize value).encode
  chunks : ∀ i < chunkCount chunkSize.toNat value.length,
    t.contents[chunkKey base (.ofNat i)]? = some (piece chunkSize.toNat value i)
  /-- Surplus chunks are gone, but for those that the store refused to remove. -/
  surplus : ∀ i, chunkCount chunkSize.toNat value.length ≤ i → i < recorded →
    ∃ served, ⟨.remove (chunkKey base (.ofNat i)), served⟩ ∈ events ∧
      t.contents[chunkKey base (.ofNat i)]? =
        if served then none else s.contents[chunkKey base (.ofNat i)]?
  others : ∀ key, key ≠ base →
    (∀ i < max (chunkCount chunkSize.toNat value.length) recorded,
      key ≠ chunkKey base (.ofNat i)) →
    t.contents[key]? = s.contents[key]?

section Overwrites

variable {base : String} {chunkSize : ChunkSize} {value : Bytes} {recorded : Nat}
  {s : ChunkStore}

/-- The calls of the layout, around that which stores a chunk. -/
theorem layoutCalls_around_chunk (base : String) (recorded : Nat) {i : Nat}
    (hi : i < chunkCount chunkSize.toNat value.length) :
    ∃ before after, layoutCalls base chunkSize value recorded =
        before ++ .store (chunkKey base (.ofNat i)) (piece chunkSize.toNat value i) :: after ∧
      ∀ call ∈ after, call.key = base ∨
        ∃ j < max (chunkCount chunkSize.toNat value.length) recorded, i < j ∧
          call.key = chunkKey base (.ofNat j) := by
  generalize hn : chunkCount chunkSize.toNat value.length = n at hi ⊢
  have hrange : List.range n = List.range i ++ i :: List.range' (i + 1) (n - (i + 1)) := by
    have hsum : i + (n - (i + 1) + 1) = n := by omega
    rw [← List.range'_succ, range_append_range', hsum]
  refine ⟨[.load base, .remove base] ++ chunkCalls base chunkSize.toNat value (List.range i),
    chunkCalls base chunkSize.toNat value (List.range' (i + 1) (n - (i + 1))) ++
      .store base (manifestOf chunkSize value).encode ::
        removeCalls base (List.range' n (recorded - n)), ?_, ?_⟩
  · rw [layoutCalls, hn, hrange]
    simp [chunkCalls, chunkCall]
  · intro call hmem
    rcases List.mem_append.1 hmem with hmem | hmem
    · obtain ⟨j, hj, hkey⟩ := key_of_mem_chunkCalls hmem
      rw [List.mem_range'_1] at hj
      exact .inr ⟨j, by omega, by omega, hkey⟩
    · rcases List.mem_cons.1 hmem with rfl | hmem
      · exact .inl rfl
      · obtain ⟨j, hj, hkey⟩ := key_of_mem_removeCalls hmem
        rw [List.mem_range'_1] at hj
        exact .inr ⟨j, by omega, by omega, hkey⟩

/-- The calls of the layout, around that which removes a chunk. -/
theorem layoutCalls_around_surplus (base : String) {i : Nat}
    (hi : chunkCount chunkSize.toNat value.length ≤ i) (hrecorded : i < recorded) :
    ∃ before after, layoutCalls base chunkSize value recorded =
        before ++ .remove (chunkKey base (.ofNat i)) :: after ∧
      ∀ call, call ∈ before ∨ call ∈ after → call.key = base ∨
        ∃ j < recorded, j ≠ i ∧ call.key = chunkKey base (.ofNat j) := by
  generalize hn : chunkCount chunkSize.toNat value.length = n at hi
  have hrange : List.range' n (recorded - n) =
      List.range' n (i - n) ++ i :: List.range' (i + 1) (recorded - (i + 1)) := by
    have hsum : recorded - n = (i - n) + (recorded - (i + 1) + 1) := by omega
    have hmiddle : n + (i - n) = i := by omega
    rw [hsum, ← List.range'_append_1, hmiddle, List.range'_succ]
  refine ⟨[.load base, .remove base] ++ chunkCalls base chunkSize.toNat value (List.range n) ++
      .store base (manifestOf chunkSize value).encode :: removeCalls base (List.range' n (i - n)),
    removeCalls base (List.range' (i + 1) (recorded - (i + 1))), ?_, ?_⟩
  · rw [layoutCalls, hn, hrange]
    simp [removeCalls]
  · rintro call (hmem | hmem)
    · rcases List.mem_append.1 hmem with hmem | hmem
      · rcases List.mem_append.1 hmem with hmem | hmem
        · simp only [List.mem_cons, List.not_mem_nil, or_false] at hmem
          rcases hmem with rfl | rfl <;> exact .inl rfl
        · obtain ⟨j, hj, hkey⟩ := key_of_mem_chunkCalls hmem
          rw [List.mem_range] at hj
          exact .inr ⟨j, by omega, by omega, hkey⟩
      · rcases List.mem_cons.1 hmem with rfl | hmem
        · exact .inl rfl
        · obtain ⟨j, hj, hkey⟩ := key_of_mem_removeCalls hmem
          rw [List.mem_range'_1] at hj
          exact .inr ⟨j, by omega, by omega, hkey⟩
    · obtain ⟨j, hj, hkey⟩ := key_of_mem_removeCalls hmem
      rw [List.mem_range'_1] at hj
      exact .inr ⟨j, by omega, by omega, hkey⟩

/-- Every call of the layout is for a key of the value or of the one it replaces. -/
theorem key_of_mem_layoutCalls {call : Call}
    (hmem : call ∈ layoutCalls base chunkSize value recorded) :
    call.key = base ∨ ∃ i < max (chunkCount chunkSize.toNat value.length) recorded,
      call.key = chunkKey base (.ofNat i) := by
  simp only [layoutCalls, List.mem_append, List.mem_cons, List.not_mem_nil, or_false] at hmem
  rcases hmem with ((rfl | rfl) | hmem) | rfl | hmem
  · exact .inl rfl
  · exact .inl rfl
  · obtain ⟨i, hi, hkey⟩ := key_of_mem_chunkCalls hmem
    rw [List.mem_range] at hi
    exact .inr ⟨i, by omega, hkey⟩
  · exact .inl rfl
  · obtain ⟨i, hi, hkey⟩ := key_of_mem_removeCalls hmem
    rw [List.mem_range'_1] at hi
    exact .inr ⟨i, by omega, hkey⟩

/-- The manifest is stored once all chunks are, and only surplus chunks are touched after. -/
theorem manifest_afterAll_layoutCalls (hserves : s.ServesWriting base) :
    (s.afterAll (layoutCalls base chunkSize value recorded)).contents[base]? =
      some (manifestOf chunkSize value).encode := by
  rw [layoutCalls, ChunkStore.getElem?_afterAll_last]
  · rw [ChunkStore.contents_after_of_served _ _ ((hserves.afterAll _).store _ _), Call.apply,
      Std.ExtTreeMap.getElem?_insert_self]
  · intro call hmem heq
    obtain ⟨i, -, hkey⟩ := key_of_mem_removeCalls hmem
    exact chunkKey_ne_self base (.ofNat i) (hkey.symm.trans heq)

theorem chunk_afterAll_layoutCalls {i : Nat} (hserves : s.ServesWriting base)
    (hfits : value.length < UInt64.size) (hrecorded : recorded < UInt64.size)
    (hi : i < chunkCount chunkSize.toNat value.length) :
    (s.afterAll (layoutCalls base chunkSize value recorded)).contents[chunkKey base (.ofNat i)]? =
      some (piece chunkSize.toNat value i) := by
  have hcount := chunkCount_lt chunkSize.toNat_pos hfits
  obtain ⟨before, after, hcalls, hafter⟩ := layoutCalls_around_chunk base recorded hi
  rw [hcalls, ChunkStore.getElem?_afterAll_last]
  · rw [ChunkStore.contents_after_of_served _ _ ((hserves.afterAll _).store _ _), Call.apply,
      Std.ExtTreeMap.getElem?_insert_self]
  · intro call hmem heq
    rcases hafter call hmem with hkey | ⟨j, hj, hij, hkey⟩
    · exact chunkKey_ne_self base (.ofNat i) (heq.symm.trans hkey)
    · have := (chunkKey_ofNat_inj (by omega) (by omega)).1 (heq.symm.trans hkey)
      omega

theorem surplus_afterAll_layoutCalls {i : Nat} (hrecorded : recorded < UInt64.size)
    (hcount : chunkCount chunkSize.toNat value.length ≤ i) (hi : i < recorded) :
    ∃ served, ⟨.remove (chunkKey base (.ofNat i)), served⟩ ∈
        s.events (layoutCalls base chunkSize value recorded) ∧
      (s.afterAll (layoutCalls base chunkSize value recorded)).contents[
          chunkKey base (.ofNat i)]? =
        if served then none else s.contents[chunkKey base (.ofNat i)]? := by
  obtain ⟨before, after, hcalls, hothers⟩ := layoutCalls_around_surplus base hcount hi
  have hne (call : Call) (hmem : call ∈ before ∨ call ∈ after) :
      call.key ≠ chunkKey base (.ofNat i) := by
    intro heq
    rcases hothers call hmem with hkey | ⟨j, hj, hij, hkey⟩
    · exact chunkKey_ne_self base (.ofNat i) (heq.symm.trans hkey)
    · exact hij ((chunkKey_ofNat_inj (by omega) (by omega)).1 (hkey.symm.trans heq))
  have hbefore := ChunkStore.getElem?_afterAll_of_key_ne (fun call hmem => hne call (.inl hmem)) s
  rw [hcalls]
  refine ⟨_, ChunkStore.mem_events_around before after _ s, ?_⟩
  rw [ChunkStore.getElem?_afterAll_last before _ fun call hmem => hne call (.inr hmem)]
  cases hrefusal : (s.afterAll before).refusal? (.remove (chunkKey base (.ofNat i))) with
  | none =>
    rw [ChunkStore.contents_after_of_served _ _ hrefusal, Call.apply,
      Std.ExtTreeMap.getElem?_erase_self]
    rfl
  | some error =>
    rw [ChunkStore.contents_after_of_refused _ _ hrefusal, hbefore]
    rfl

theorem afterAll_layoutCalls (base : String) (chunkSize : ChunkSize) (value : Bytes)
    (recorded : Nat) (s : ChunkStore) :
    s.afterAll (layoutCalls base chunkSize value recorded) =
      (s.afterAll [.load base, .remove base]).afterAll
        (chunkCalls base chunkSize.toNat value
            (List.range (chunkCount chunkSize.toNat value.length)) ++
          .store base (manifestOf chunkSize value).encode ::
            removeCalls base (List.range' (chunkCount chunkSize.toNat value.length)
              (recorded - chunkCount chunkSize.toNat value.length))) := by
  rw [layoutCalls, List.append_assoc, ChunkStore.afterAll_append]

/-- The calls of the layout overwrite whatever there was. -/
theorem overwrites_afterAll (hserves : s.ServesWriting base) (hfits : value.length < UInt64.size)
    (hrecorded : recorded < UInt64.size) :
    Overwrites base chunkSize value recorded
      (s.events (layoutCalls base chunkSize value recorded)) s
      (s.afterAll (layoutCalls base chunkSize value recorded)) where
  calls := ChunkStore.map_call_events _ s
  history := ChunkStore.history_afterAll _ s
  manifest := manifest_afterAll_layoutCalls hserves
  chunks := fun _ hi => chunk_afterAll_layoutCalls hserves hfits hrecorded hi
  surplus := fun _ hcount hi => surplus_afterAll_layoutCalls hrecorded hcount hi
  others := by
    intro key hbase hchunks
    apply ChunkStore.getElem?_afterAll_of_key_ne
    intro call hmem heq
    rcases key_of_mem_layoutCalls hmem with hkey | ⟨i, hi, hkey⟩
    · exact hbase (heq.symm.trans hkey)
    · exact hchunks i hi (heq.symm.trans hkey)

end Overwrites

namespace ChunkWriter

/-- However a value is cut, writing and finishing it makes the same calls in the same
order and leaves the same layout, whatever the store held before.  There must be a buffer for
its chunks. -/
theorem overwrites_of_writeAll (base : String) (chunkSize : ChunkSize) (pieces : List Bytes)
    (s : ChunkStore) (hbuffer : chunkSize.IsAllocatable) (hserves : s.ServesWriting base)
    (hfits : pieces.flatten.length < UInt64.size) :
    ∃ w₀ s₀ w₁ s₁ w₂ s₂ events,
      create base chunkSize s = (.ok w₀, s₀) ∧
      writeAll pieces w₀ s₀ = (.ok (), w₁, s₁) ∧
      w₁.finish s₁ = (.ok (manifestOf chunkSize pieces.flatten), w₂, s₂) ∧
      Overwrites base chunkSize pieces.flatten (s.contents.recordedChunks base).toNat events
        s s₂ := by
  have hrecorded := (s.contents.recordedChunks base).toNat_lt
  have hcreate := create_of_serves hbuffer hserves
  have hserves₀ := hserves.afterAll [.load base, .remove base]
  have hwrite := writeAll_writing chunkSize (s.contents.recordedChunks base) [] pieces hserves₀ (by
      rw [List.length_nil, Nat.zero_div]
      rfl)
  rw [List.nil_append] at hwrite
  have hfinish := finish_writing chunkSize (s.contents.recordedChunks base) hserves₀ hfits
  rw [← afterAll_layoutCalls] at hfinish
  exact ⟨_, _, _, _, _, _, _, hcreate, hwrite, hfinish,
    overwrites_afterAll hserves hfits hrecorded⟩

/-- A store that holds a value of three chunks and refuses to remove the last of them. -/
def stubbornStore : ChunkStore where
  contents := ((∅ : Contents).insert "k/2" [9]).insert "k" (Manifest.mk 3 3 1).encode
  plan := fun _ call => if call = .remove "k/2" then some .engine else none

theorem servesWriting_stubbornStore : stubbornStore.ServesWriting "k" := by
  intro tally call hremove
  refine if_neg fun heq => ?_
  exact absurd (hremove "k/2" heq) (by decide)

/-- Four bytes in one chunk take the place of three chunks. -/
theorem overwrites_of_writeAll_stubbornStore :
    stubbornStore.ServesWriting "k" ∧
    ∃ (w₀ : ChunkWriter) (s₀ : ChunkStore) (w₁ : ChunkWriter) (s₁ : ChunkStore)
      (w₂ : ChunkWriter) (s₂ : ChunkStore) (events : List Event),
      create "k" ⟨4, by decide⟩ stubbornStore = (.ok w₀, s₀) ∧
      writeAll [[1], [], [2, 3, 4]] w₀ s₀ = (.ok (), w₁, s₁) ∧
      w₁.finish s₁ = (.ok ⟨1, 4, 4⟩, w₂, s₂) ∧
      events.map Event.call =
        [.load "k", .remove "k", .store "k/0" [1, 2, 3, 4],
          .store "k" (Manifest.mk 1 4 4).encode, .remove "k/1", .remove "k/2"] ∧
      s₂.history = events.reverse ∧ s₂.contents["k/0"]? = some [1, 2, 3, 4] := by
  have hrecorded : stubbornStore.contents.recordedChunks "k" = 3 := by
    rw [Contents.recordedChunks, stubbornStore, Std.ExtTreeMap.getElem?_insert_self]
    simp only [Manifest.decode_encode]
  obtain ⟨w₀, s₀, w₁, s₁, w₂, s₂, events, hcreate, hwrite, hfinish, hover⟩ :=
    overwrites_of_writeAll "k" ⟨4, by decide⟩ [[1], [], [2, 3, 4]] stubbornStore (by decide)
      servesWriting_stubbornStore (by decide)
  rw [hrecorded] at hover
  refine ⟨servesWriting_stubbornStore, w₀, s₀, w₁, s₁, w₂, s₂, events, hcreate, hwrite,
    hfinish, hover.calls, ?_, ?_⟩
  · exact hover.history.trans (List.append_nil _)
  · exact hover.chunks 0 (by decide)

/-- It is not so that a value can be begun with chunks of any size: of the calls it would make
only two are made for the largest ones, and they lose the three chunks. -/
theorem create_panics_stubbornStore :
    stubbornStore.ServesWriting "k" ∧
      create "k" hugeChunkSize stubbornStore =
        (.error .panicked, stubbornStore.afterAll [.load "k", .remove "k"]) ∧
      (stubbornStore.afterAll [.load "k", .remove "k"]).contents["k"]? = none := by
  have hserves := servesWriting_stubbornStore
  have hcreate : create "k" hugeChunkSize stubbornStore =
      (.error .panicked, stubbornStore.afterAll [.load "k", .remove "k"]) :=
    create_of_not_allocatable not_allocatable_hugeChunkSize (hserves.load "k")
      (hserves.afterAll [.load "k"]).remove
  refine ⟨hserves, hcreate, ?_⟩
  rw [(eq_of_create_panicked hcreate).2, Std.ExtTreeMap.getElem?_erase_self]

end ChunkWriter

end ContentVault
