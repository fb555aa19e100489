import ContentVault.Proofs.DirectRuns
import ContentVault.Proofs.FailingInput

/-!
# Failing inputs in the two kinds of backend

Where nothing else goes wrong, a chunked backend tells of an input that fails as that failure,
and of the error inside it if it carries one.  A direct backend tells of the same input as of
a failure of its own, with the failure of the input inside.
-/

namespace ContentVault

/-- No failure of an input is a failure of the backend over that very failure. -/
theorem VaultError.ofStream_ne_backendUnavailable (error : IoError) :
    ofStream error ≠ .backendUnavailable (.io error) := by
  cases error with
  | carrying kind inner =>
    intro heq
    have hsize := congrArg sizeOf (show inner = _ from heq)
    simp only [backendUnavailable.sizeOf_spec, StorageError.io.sizeOf_spec,
      IoError.carrying.sizeOf_spec] at hsize
    omega
  | _ => exact fun heq => VaultError.noConfusion heq

namespace Entry

variable {source : Source} {v : Vault} {value : Bytes} {error : IoError}

/-- A direct backend tells of a failing input as a failure of its own, and keeps nothing of
the input. -/
theorem store_direct_of_failed {store : BlobStore} {root : Place} (id : StoreId)
    (key : ContentKey) (hstands : store.Stands v.tree root)
    (hyields : source.Yields (· = ·) copySize v.stores value (some error)) :
    ∃ source' v', (Entry.mk (.direct id store) key).store source v =
      (.error (.reported (.backendUnavailable (.io error))), source', v') ∧
        v'.tree = v.tree := by
  obtain ⟨source', stores', hput⟩ := BlobStore.put_of_failed hstands hyields
  refine ⟨source', { v with stores := stores' }, ?_, rfl⟩
  simp only [Entry.store, hput]

/-- Of one and the same failing input the two kinds of backend tell differently, although
neither has failed itself. -/
theorem store_tells_apart (id : StoreId) (store : BlobStore) (root : Place)
    (handle : StoreHandle) (chunkSize : ChunkSize) (key : ContentKey) (source : Source) (v : Vault)
    (value : Bytes) (error : IoError) (hstands : store.Stands v.tree root)
    (hbuffer : chunkSize.IsAllocatable) (hserves : (v.stores.get handle.id).ServesAll)
    (hsource : ∀ now, v.stores.ChangesAt handle.id key.dataKey now →
      source.Yields (Stores.ChangesAt handle.id key.dataKey) copySize now value (some error)) :
    (∃ source' v', (Entry.mk (.direct id store) key).store source v =
        (.error (.reported (.backendUnavailable (.io error))), source', v') ∧
          v'.tree = v.tree) ∧
      (∃ source' v', (Entry.mk (.chunked handle chunkSize) key).store source v =
        (.error (.reported (.ofStream error)), source', v')) ∧
      VaultError.ofStream error ≠ .backendUnavailable (.io error) := by
  refine ⟨?_, ?_, VaultError.ofStream_ne_backendUnavailable error⟩
  · have hyields := hsource v.stores (.refl handle.id key.dataKey v.stores)
    apply store_direct_of_failed id key hstands (hyields.mono _)
    rintro stores now rfl
    exact .refl handle.id key.dataKey stores
  · obtain ⟨source', stores', hstored, -⟩ :=
      storeChunks_of_yields key handle hbuffer hserves hsource
    refine ⟨source', { v with stores := stores' }, ?_⟩
    rw [store_chunked, hstored]
    rfl

/-- A vault with an empty directory for values beside a store in memory. -/
def deskVault : Vault :=
  { plannedVault .none with tree := BlobStore.emptyRoot }

/-- Three bytes and then a failure that carries an error of the library, as that of another
value being read: only the chunked backend tells of that error. -/
theorem store_tells_apart_deskVault :
    let broken : Source := .script ⟨[.data [1, 2, 3],
      .failure (.carrying .other (.writerFailed 7))], none⟩
    let direct : Entry := ⟨.direct 1 ⟨"v"⟩, ⟨"k"⟩⟩
    let chunked : Entry := ⟨.chunked ⟨0, .ofLoader Backend.memoryLoader⟩ .standard, ⟨"k"⟩⟩
    (∃ source' v', direct.store broken deskVault = (.error (.reported (.backendUnavailable
        (.io (.carrying .other (.writerFailed 7))))), source', v') ∧ v'.tree = deskVault.tree) ∧
      ∃ source' v', chunked.store broken deskVault =
        (.error (.reported (.writerFailed 7)), source', v') := by
  intro broken direct chunked
  have hserves : (deskVault.stores.get 0).ServesAll := by
    have hget : deskVault.stores.get 0 = { plan := .none } := Stores.get_insert_self ∅ 0 _
    rw [hget]
    exact fun _ _ => rfl
  obtain ⟨hdirect, hchunked, -⟩ := store_tells_apart 1 ⟨"v"⟩ ["", "v"]
    ⟨0, .ofLoader Backend.memoryLoader⟩ .standard ⟨"k"⟩ broken deskVault [1, 2, 3]
    (.carrying .other (.writerFailed 7)) BlobStore.stands_emptyRoot (by decide) hserves
    fun now _ => Source.yields_script _ (by decide) (by decide) _ now
  exact ⟨hdirect, hchunked⟩

end Entry

end ContentVault
