import ContentVault.Proofs.SourceDelivery
import ContentVault.Proofs.WriterProgress

/-!
# Storing and reading back

As long as a store serves every call, what is stored from a source is what is read
back under the same key, whatever the store held before and however the bytes were
cut on their way in and on their way out.
-/

namespace ContentVault

open ChunkStore (Calls)

namespace Entry

variable {id : StoreId} {base : String} {source : Source} {stores : Stores} {value : Bytes}

/-- A source that hands out a value is copied to its end, and the writer accepts all of
it. -/
theorem exists_copies_of_handsOut {w : ChunkWriter} {accepted : Bytes}
    (hout : source.HandsOut id base copySize stores value)
    (hw : w.Holds (stores.get id).contents accepted) (hbase : w.base = base)
    (hserves : (stores.get id).ServesAll) (hfits : (accepted ++ value).length < UInt64.size) :
    ∃ copied, Copies id w source stores value copied ∧ copied.failure = none ∧
      copied.writer.base = base ∧ (copied.stores.get id).ServesAll ∧
      copied.writer.Holds (copied.stores.get id).contents (accepted ++ value) := by
  induction hout generalizing w accepted with
  | @ended source after stores stores' hread =>
    have hcalls := Source.calls_of_read hread id
    refine ⟨_, .ended hread, rfl, hbase, hserves.of_calls hcalls, ?_⟩
    rw [hcalls.contents_eq_of_isLoad, List.append_nil]
    exact hw
  | @piece source after stores stores' piece bytes hread hpiece hrest ih =>
    have hcalls := Source.calls_of_read hread id
    rw [← hcalls.contents_eq_of_isLoad] at hw
    have hserves' := hserves.of_calls hcalls
    rw [← List.append_assoc] at hfits ⊢
    have hfits' := fits_of_append hfits
    obtain ⟨w', s', hwrite⟩ := ChunkWriter.exists_write hw.writing piece hserves'
    obtain ⟨hbase', -, hw'⟩ := hw.write hfits' hwrite
    have hwrites := ChunkWriter.calls_write w piece (stores'.get id)
    rw [hwrite, hbase] at hwrites
    have hchanges : stores'.ChangesAt id base (stores'.insert id s') :=
      .insert (hwrites.mono fun call hcall => hcall.within)
    have hget : Stores.get (stores'.insert id s') id = s' := Stores.get_insert_self _ _ _
    rw [← hget] at hw'
    obtain ⟨copied, hcopies, hcopied⟩ := ih _ hchanges hw' (hbase'.trans hbase)
      (by rw [hget]; exact hserves'.of_calls hwrites) hfits
    exact ⟨copied, .accepted hread hpiece hwrite hcopies, hcopied⟩
  | @again source after stores stores' bytes error hread hinterrupted hrest ih =>
    have hcalls := Source.calls_of_read hread id
    rw [← hcalls.contents_eq_of_isLoad] at hw
    obtain ⟨copied, hcopies, hcopied⟩ := ih hw hbase (hserves.of_calls hcalls) hfits
    exact ⟨copied, .again hread hinterrupted hcopies, hcopied⟩

/-- Storing a source that hands out a value leaves that value in the store. -/
theorem exists_storeChunks {key : ContentKey} {handle : StoreHandle} {chunkSize : ChunkSize}
    (hbuffer : chunkSize.IsAllocatable) (hserves : (stores.get handle.id).ServesAll)
    (hsource : ∀ now, stores.ChangesAt handle.id key.dataKey now →
      source.HandsOut handle.id key.dataKey copySize now value)
    (hfits : value.length < UInt64.size) :
    ∃ source' stores', storeChunks key handle chunkSize source stores =
        (.ok key, source', stores') ∧ (stores'.get handle.id).ServesAll ∧
      ∃ held, (stores'.get handle.id).contents.HoldsValue key.dataKey held value := by
  obtain ⟨w, s, hcreate⟩ := ChunkWriter.exists_create key.dataKey hbuffer hserves
  have hcalls := ChunkWriter.calls_create_within key.dataKey chunkSize (stores.get handle.id)
  rw [hcreate] at hcalls
  obtain ⟨hbase, -, hw⟩ := ChunkWriter.Holds.create hcreate
  have hget : Stores.get (stores.insert handle.id s) handle.id = s := Stores.get_insert_self _ _ _
  have hserves' := hserves.of_calls hcalls
  rw [← hget] at hw hserves'
  obtain ⟨copied, hcopies, hnone, hbase', hserves'', hcopied⟩ :=
    exists_copies_of_handsOut (hsource _ (.insert hcalls)) hw hbase hserves' hfits
  obtain ⟨result, w', s', hfinish⟩ := ChunkWriter.exists_finish hcopied.writing hserves''
  obtain ⟨-, -, hvalue⟩ := hcopied.finish hfinish
  have hfinishes := ChunkWriter.calls_finish copied.writer (copied.stores.get handle.id)
  rw [hfinish] at hfinishes
  refine ⟨copied.source, copied.stores.insert handle.id s', ?_, ?_, copied.writer.chunkSize, ?_⟩
  · rw [storeChunks_of_copies hcreate hcopies, hnone, hfinish]
  · rw [Stores.get_insert_self]
    exact hserves''.of_calls hfinishes
  · rw [Stores.get_insert_self, ← hbase']
    exact hvalue

/-- Chunks that are too large for a buffer are not stored: the source is left unread, and the
manifest of the value before is gone. -/
theorem exists_panic_of_not_allocatable (key : ContentKey) (handle : StoreHandle)
    {chunkSize : ChunkSize} (source : Source) (v : Vault) (hbuffer : ¬chunkSize.IsAllocatable)
    (hserves : (v.stores.get handle.id).ServesAll) :
    ∃ v', (Entry.mk (.chunked handle chunkSize) key).store source v =
        (.error .panicked, source, v') ∧
      (v'.stores.get handle.id).contents =
        (v.stores.get handle.id).contents.erase key.dataKey := by
  obtain ⟨s, hcreate⟩ : ∃ s, ChunkWriter.create key.dataKey chunkSize (v.stores.get handle.id) =
      (.error .panicked, s) :=
    ⟨_, ChunkWriter.create_of_not_allocatable hbuffer (hserves.refusal?_eq _) (hserves _ _)⟩
  refine ⟨{ v with stores := v.stores.insert handle.id s }, ?_, ?_⟩
  · simp only [store, storeChunks_of_create_error hcreate]
  · rw [Stores.get_insert_self]
    exact (ChunkWriter.eq_of_create_panicked hcreate).2

/-- What a source hands out while it is stored, in chunks that there is a buffer for, is what
every later reader of the entry is delivered, whatever the store held before. -/
theorem openRead_of_store (key : ContentKey) (handle : StoreHandle) (chunkSize : ChunkSize)
    (source : Source) (v : Vault) (value : Bytes) (hbuffer : chunkSize.IsAllocatable)
    (hserves : (v.stores.get handle.id).ServesAll)
    (hsource : ∀ now, v.stores.ChangesAt handle.id key.dataKey now →
      source.HandsOut handle.id key.dataKey copySize now value)
    (hfits : value.length < UInt64.size) :
    ∃ source' v', (Entry.mk (.chunked handle chunkSize) key).store source v =
        (.ok key, source', v') ∧
      ∀ chunkSize' : ChunkSize, ∃ opened v'',
        (Entry.mk (.chunked handle chunkSize') key).openRead v' = (.ok opened, v'') ∧
        ∀ sizes : Nat → Nat, (∀ turn, 0 < sizes turn) →
          opened.Delivers sizes v''.stores value := by
  obtain ⟨source', stores', hstore, hserves', held, hvalue⟩ :=
    exists_storeChunks hbuffer hserves hsource hfits
  refine ⟨source', { v with stores := stores' }, ?_, ?_⟩
  · simp only [store, hstore]
  · intro chunkSize'
    obtain ⟨opened, v'', hopen, hpromises⟩ := exists_openRead_of_holdsValue key handle chunkSize'
      { v with stores := stores' } hserves'.servesLoads hvalue hfits
    exact ⟨opened, v'', hopen, fun sizes hsizes => hpromises.delivers hsizes⟩

/-- Three bytes that come in two pieces, with an interruption between them. -/
def interruptedScript : ScriptedInput where
  events := [.data [1], .failure (.plain .interrupted), .data [2, 3]]
  limit := none

/-- Stores of which one holds a chunk without a manifest. -/
def orphanStores : Stores :=
  (∅ : Stores).insert 0 { contents := (∅ : Contents).insert "k-data/0" [9] }

/-- The vault of these stores. -/
def orphanVault : Vault :=
  { Vault.ofTree .empty with stores := orphanStores }

theorem servesAll_orphanVault : (orphanVault.stores.get 0).ServesAll := by
  intro tally call
  simp [orphanVault, orphanStores, Stores.get, FaultPlan.none]

theorem handsOut_interruptedScript (now : Stores) :
    (Source.script interruptedScript).HandsOut 0 (ContentKey.mk "k").dataKey copySize now
      [1, 2, 3] :=
  Source.handsOut_script (by decide) (by decide) rfl now

/-- The three bytes are what is read back in pieces of two bytes. -/
theorem openRead_of_store_interruptedScript :
    let handle : StoreHandle := ⟨0, .ofLoader Backend.memoryLoader⟩
    let v := orphanVault
    ∃ source' v', (Entry.mk (.chunked handle ⟨1, by decide⟩) ⟨"k"⟩).store
        (.script interruptedScript) v = (.ok ⟨"k"⟩, source', v') ∧
      ∃ opened v'', (Entry.mk (.chunked handle .standard) ⟨"k"⟩).openRead v' = (.ok opened, v'') ∧
        opened.Delivers (fun _ => 2) v''.stores [1, 2, 3] := by
  intro handle v
  obtain ⟨source', v', hstore, hread⟩ := openRead_of_store ⟨"k"⟩ handle ⟨1, by decide⟩
    (.script interruptedScript) v [1, 2, 3] (by decide) servesAll_orphanVault
    (fun now _ => handsOut_interruptedScript now) (by decide)
  obtain ⟨opened, v'', hopen, hdelivers⟩ := hread .standard
  exact ⟨source', v', hstore, opened, v'', hopen, hdelivers _ fun _ => by decide⟩

/-- It is not so that the three bytes can be stored in chunks of any size: although nothing is
refused, there is no buffer for the largest ones. -/
theorem store_panics_orphanVault :
    (orphanVault.stores.get 0).ServesAll ∧
      (∀ now, (Source.script interruptedScript).HandsOut 0 (ContentKey.mk "k").dataKey copySize now
        [1, 2, 3]) ∧
      ∃ v', (Entry.mk (.chunked ⟨0, .ofLoader Backend.memoryLoader⟩
          ChunkWriter.hugeChunkSize) ⟨"k"⟩).store (.script interruptedScript) orphanVault =
        (.error .panicked, .script interruptedScript, v') := by
  obtain ⟨v', hstore, -⟩ := exists_panic_of_not_allocatable ⟨"k"⟩
    ⟨0, .ofLoader Backend.memoryLoader⟩ (.script interruptedScript) orphanVault
    ChunkWriter.not_allocatable_hugeChunkSize servesAll_orphanVault
  exact ⟨servesAll_orphanVault, handsOut_interruptedScript, v', hstore⟩

end Entry

end ContentVault
