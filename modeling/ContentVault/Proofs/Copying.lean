import ContentVault.Entry
import ContentVault.Proofs.ReadAhead
import ContentVault.Proofs.WriterInvariant

/-!
# Copying a source to a writer

Reading only ever loads, so it leaves the contents of every store alone.  Copying
alternates reads with writes until the source ends or one of them fails, and the
bytes that the writer has accepted by then are those of the writes that succeeded.
-/

namespace ContentVault

open ChunkStore (Calls)

namespace Stores

@[simp]
theorem get_insert_self (stores : Stores) (id : StoreId) (s : ChunkStore) :
    Stores.get (stores.insert id s) id = s := by
  simp [Stores.get]

theorem get_insert_of_ne (stores : Stores) {id other : StoreId} (s : ChunkStore)
    (hne : other ≠ id) : Stores.get (stores.insert id s) other = stores.get other := by
  simp [Stores.get, Std.ExtTreeMap.getD_insert, hne.symm]

@[simp]
theorem insert_insert_self (stores : Stores) (id : StoreId) (s t : ChunkStore) :
    (stores.insert id s).insert id t = stores.insert id t := by
  apply Std.ExtTreeMap.ext_getElem?
  intro other
  simp only [Std.ExtTreeMap.getElem?_insert]
  split <;> rfl

theorem update_eq {α : Type} (stores : Stores) (id : StoreId)
    (operation : ChunkStore → α × ChunkStore) :
    stores.update id operation =
      ((operation (stores.get id)).1, stores.insert id (operation (stores.get id)).2) := rfl

theorem update_write (stores : Stores) (id : StoreId) (w : ChunkWriter) (data : Bytes) :
    (stores.update id fun s =>
      let (result, w, s) := w.write data s
      ((result, w), s)) =
      (((w.write data (stores.get id)).1, (w.write data (stores.get id)).2.1),
        stores.insert id (w.write data (stores.get id)).2.2) := rfl

end Stores

namespace ChunkReader

/-- Opening a value only looks up its keys, whether or not there is one. -/
theorem looks_create (base : String) (s : ChunkStore) :
    Calls (Call.Looks base) s (create base s).2 := by
  have hmanifest : Calls (Call.Looks base) s (s.loadManifest base).2 := by
    rw [ChunkStore.loadManifest_snd]
    exact Calls.single ⟨⟨base, rfl⟩, .base base⟩
  rw [create]
  split
  · rename_i heq
    rw [heq] at hmanifest
    exact hmanifest
  · rename_i s₁ heq
    rw [heq] at hmanifest
    apply hmanifest.trans
    have hfirst : Calls (Call.Looks base) s₁ (s₁.load (chunkKey base 0)).2 := by
      rw [ChunkStore.load_eq]
      exact Calls.single ⟨⟨_, rfl⟩, .chunk base 0⟩
    split <;> rename_i heq' <;> rw [heq'] at hfirst <;> exact hfirst
  · rename_i heq
    rw [heq] at hmanifest
    split <;> exact hmanifest

theorem looks_nextChunk (r : ChunkReader) (s : ChunkStore) :
    Calls (Call.Looks r.base) s (r.nextChunk s).2 := by
  rcases nextChunk_cases r s with heq | ⟨error, t, heq, hcalls, -⟩ | ⟨chunk, t, heq, hcalls⟩ <;>
    rw [heq]
  · exact Calls.refl s
  · exact hcalls
  · exact hcalls

theorem looks_refill (r : ChunkReader) (s : ChunkStore) :
    Calls (Call.Looks r.base) s (r.refill s).2.2 := by
  fun_induction refill r s with
  | case1 r s => exact Calls.refl s
  | case2 r s hpending s₁ error hnext =>
    have hcalls := looks_nextChunk r s
    rw [hnext] at hcalls
    exact hcalls
  | case3 r s hpending s₁ hnext =>
    have hcalls := looks_nextChunk r s
    rw [hnext] at hcalls
    exact hcalls
  | case4 r s hpending s₁ chunk hnext ih =>
    have hcalls := looks_nextChunk r s
    rw [hnext] at hcalls
    exact hcalls.trans ih

/-- Every call of a read is for a key of the value. -/
theorem looks_read (r : ChunkReader) (size : Nat) (s : ChunkStore) :
    Calls (Call.Looks r.base) s (r.read size s).2.2 := by
  have hrefill := looks_refill r s
  rw [read]
  split
  · exact Calls.refl s
  · split <;> rename_i heq <;> rw [heq] at hrefill <;> exact hrefill

theorem base_refill (r : ChunkReader) (s : ChunkStore) : (r.refill s).2.1.base = r.base := by
  fun_induction refill r s with
  | case4 r s hpending s₁ chunk hnext ih => exact ih
  | _ => rfl

theorem base_read (r : ChunkReader) (size : Nat) (s : ChunkStore) :
    (r.read size s).2.1.base = r.base := by
  have hrefill := base_refill r s
  rw [read]
  split
  · rfl
  · split <;> rename_i heq <;> rw [heq] at hrefill <;> exact hrefill

theorem calls_create (base : String) (s : ChunkStore) : Calls Call.IsLoad s (create base s).2 :=
  (looks_create base s).mono fun _ hlooks => hlooks.1

theorem calls_nextChunk (r : ChunkReader) (s : ChunkStore) :
    Calls Call.IsLoad s (r.nextChunk s).2 :=
  (looks_nextChunk r s).mono fun _ hlooks => hlooks.1

theorem calls_read (r : ChunkReader) (size : Nat) (s : ChunkStore) :
    Calls Call.IsLoad s (r.read size s).2.2 :=
  (looks_read r size s).mono fun _ hlooks => hlooks.1

end ChunkReader

namespace Source

/-- The base key of the value that a source hands out, if it reads one from that store. -/
def base? (id : StoreId) : Source → Option String
  | .chunks store reader => if store = id then some reader.base else none
  | .tracked inner _ => inner.base? id
  | _ => none

/-- A call that looks up a key of the value that a source hands out. -/
def Looks (source : Source) (id : StoreId) (call : Call) : Prop :=
  ∃ base, source.base? id = some base ∧ call.Looks base

/-- All that reading a source does to a store is to look up the keys of its value. -/
theorem looks_read (source : Source) (size : Nat) (stores : Stores) (id : StoreId) :
    Calls (source.Looks id) (stores.get id) ((source.read size stores).2.2.get id) := by
  induction source with
  | script input => exact Calls.refl _
  | file rest => exact Calls.refl _
  | directory => exact Calls.refl _
  | chunks store reader =>
    have hread := ChunkReader.looks_read reader size (stores.get store)
    simp only [read, Stores.update_eq]
    by_cases heq : store = id
    · subst heq
      rw [Stores.get_insert_self]
      exact hread.mono fun call hlooks => ⟨reader.base, if_pos rfl, hlooks⟩
    · rw [Stores.get_insert_of_ne _ _ (Ne.symm heq)]
      exact Calls.refl _
  | tracked inner tracker ih => exact ih

theorem base?_read (source : Source) (size : Nat) (stores : Stores) (id : StoreId) :
    (source.read size stores).2.1.base? id = source.base? id := by
  induction source with
  | script input => rfl
  | file rest => rfl
  | directory => rfl
  | chunks store reader =>
    simp only [read, Stores.update_eq, base?, ChunkReader.base_read]
  | tracked inner tracker ih => exact ih

/-- Reading a source only loads, in every store. -/
theorem calls_of_read {source after : Source} {size : Nat} {stores stores' : Stores}
    {result : Except IoError Bytes} (hread : source.read size stores = (result, after, stores'))
    (id : StoreId) : Calls Call.IsLoad (stores.get id) (stores'.get id) := by
  have hcalls := source.looks_read size stores id
  rw [hread] at hcalls
  exact hcalls.mono fun _ ⟨_, _, hlooks⟩ => hlooks.1

end Source

namespace Entry

/-- A run of copying: `bytes` are those of the writes that succeeded, in order. -/
inductive Copies (id : StoreId) : ChunkWriter → Source → Stores → Bytes → Copied → Prop where
  | ended {writer : ChunkWriter} {source after : Source} {stores stores' : Stores}
      (hread : source.read copySize stores = (.ok [], after, stores')) :
      Copies id writer source stores [] ⟨none, writer, after, stores'⟩
  | accepted {writer writer' : ChunkWriter} {source after : Source} {stores stores' : Stores}
      {s : ChunkStore} {piece bytes : Bytes} {copied : Copied}
      (hread : source.read copySize stores = (.ok piece, after, stores')) (hpiece : piece ≠ [])
      (hwrite : writer.write piece (stores'.get id) = (.ok (), writer', s))
      (hrest : Copies id writer' after (stores'.insert id s) bytes copied) :
      Copies id writer source stores (piece ++ bytes) copied
  | rejected {writer writer' : ChunkWriter} {source after : Source} {stores stores' : Stores}
      {s : ChunkStore} {piece : Bytes} {error : VaultError}
      (hread : source.read copySize stores = (.ok piece, after, stores')) (hpiece : piece ≠ [])
      (hwrite : writer.write piece (stores'.get id) = (.error error, writer', s)) :
      Copies id writer source stores [] ⟨some error, writer', after, stores'.insert id s⟩
  | again {writer : ChunkWriter} {source after : Source} {stores stores' : Stores} {bytes : Bytes}
      {error : IoError} {copied : Copied}
      (hread : source.read copySize stores = (.error error, after, stores'))
      (hinterrupted : error.isInterrupted = true)
      (hrest : Copies id writer after stores' bytes copied) :
      Copies id writer source stores bytes copied
  | failed {writer : ChunkWriter} {source after : Source} {stores stores' : Stores}
      {error : IoError} (hread : source.read copySize stores = (.error error, after, stores'))
      (hinterrupted : error.isInterrupted ≠ true) :
      Copies id writer source stores [] ⟨some (.ofStream error), writer, after, stores'⟩

/-- Copying always is such a run. -/
theorem exists_copies (id : StoreId) (writer : ChunkWriter) (source : Source) (stores : Stores) :
    ∃ bytes, Copies id writer source stores bytes (copyToWriter id writer source stores) := by
  fun_induction copyToWriter id writer source stores with
  | case1 writer source stores after stores' hread => exact ⟨[], .ended hread⟩
  | case2 writer source stores byte bytes after stores' hread writer' stores'' error hupdate =>
    simp only [Stores.update_write, Prod.mk.injEq] at hupdate
    obtain ⟨⟨hresult, rfl⟩, rfl⟩ := hupdate
    exact ⟨[], .rejected hread (List.cons_ne_nil byte bytes) (Prod.ext hresult rfl)⟩
  | case3 writer source stores byte bytes after stores' hread writer' stores'' result hupdate ih =>
    simp only [Stores.update_write, Prod.mk.injEq] at hupdate
    obtain ⟨⟨hresult, rfl⟩, rfl⟩ := hupdate
    obtain ⟨rest, hrest⟩ := ih
    exact ⟨_, .accepted hread (List.cons_ne_nil byte bytes) (Prod.ext hresult rfl) hrest⟩
  | case4 writer source stores error after stores' hread hinterrupted ih =>
    obtain ⟨rest, hrest⟩ := ih
    exact ⟨rest, .again hread hinterrupted hrest⟩
  | case5 writer source stores error after stores' hread hinterrupted =>
    exact ⟨[], .failed hread hinterrupted⟩

theorem Copies.eq {id : StoreId} {writer : ChunkWriter} {source : Source} {stores : Stores}
    {bytes : Bytes} {copied : Copied} (hcopies : Copies id writer source stores bytes copied) :
    copyToWriter id writer source stores = copied := by
  induction hcopies with
  | ended hread =>
    rw [copyToWriter]
    split <;> simp_all
  | accepted hread hpiece hwrite hrest ih =>
    rw [copyToWriter]
    split <;> simp_all [Stores.update_write]
  | rejected hread hpiece hwrite =>
    rw [copyToWriter]
    split <;> simp_all [Stores.update_write]
  | again hread hinterrupted hrest ih =>
    rw [copyToWriter]
    split <;> simp_all
  | failed hread hinterrupted =>
    rw [copyToWriter]
    split <;> simp_all

section StoreChunks

variable {key : ContentKey} {handle : StoreHandle} {chunkSize : ChunkSize} {source : Source}
  {stores : Stores} {writer : ChunkWriter} {s : ChunkStore}

theorem storeChunks_of_create_error {failure : Failure VaultError}
    (hcreate : ChunkWriter.create key.dataKey chunkSize (stores.get handle.id) =
      (.error failure, s)) :
    storeChunks key handle chunkSize source stores =
      (.error failure, source, stores.insert handle.id s) := by
  rw [storeChunks, Stores.update_eq, hcreate]

/-- Storing a source begins a value, copies the source to its writer and finishes the
value, whatever came of the copying. -/
theorem storeChunks_of_copies {bytes : Bytes} {copied : Copied}
    (hcreate : ChunkWriter.create key.dataKey chunkSize (stores.get handle.id) = (.ok writer, s))
    (hcopies : Copies handle.id writer source (stores.insert handle.id s) bytes copied) :
    storeChunks key handle chunkSize source stores =
      (match copied.failure, (copied.writer.finish (copied.stores.get handle.id)).1 with
        | some error, _ => .error (.reported error)
        | none, .error error => .error (.reported error)
        | none, .ok _ => .ok key,
        copied.source,
        copied.stores.insert handle.id
          (copied.writer.finish (copied.stores.get handle.id)).2.2) := by
  rw [storeChunks, Stores.update_eq, hcreate]
  simp only [hcopies.eq, Stores.update_eq]
  cases copied.failure <;>
    cases (copied.writer.finish (copied.stores.get handle.id)).1 <;> rfl

end StoreChunks

end Entry

end ContentVault
