import ContentVault.Proofs.FailingInput
import ContentVault.Proofs.FixityCheck
import ContentVault.Proofs.RefusedLoads

/-!
# Copying values from one store to another

A value that is opened in one store may be stored in another one, through any number of sources
that digest its bytes on the way.  What becomes of it is decided by the store it is read from:
its end makes the copy whole, and the error of its reader is told as it is.  In either case the
copy has the bytes before, and each chunk was asked for once.
-/

namespace ContentVault

open ChunkStore (AllServed EndsRefused)

theorem ChunkStore.ServesAll.afterAll {s : ChunkStore} (hserves : s.ServesAll)
    (calls : List Call) : (s.afterAll calls).ServesAll := by
  rw [ServesAll, plan_afterAll]
  exact hserves

/-- The calls that look up the first chunks under a base key, each once and in order. -/
def loadCalls (base : String) (count : Nat) : List Call :=
  (List.range count).map fun i => .load (chunkKey base (.ofNat i))

theorem loadCalls_succ (base : String) (count : Nat) :
    loadCalls base (count + 1) =
      loadCalls base count ++ [.load (chunkKey base (.ofNat count))] := by
  rw [loadCalls, List.range_succ, List.map_append]
  rfl

theorem VaultError.OfReader.ofStream_toStream {error : VaultError} (herror : error.OfReader) :
    VaultError.ofStream error.toStream = error := by
  apply VaultError.ofStream_toStream
  rintro inner rfl
  cases herror

namespace ChunkReader

/-- What reading the chunks under a base key has stopped for: at the end and for a corrupt
sequence every load was served, and otherwise the last one was refused. -/
inductive StopsFor (base : String) (s t : ChunkStore) : Option VaultError → Prop where
  | ended (hserved : s.AllServed t) : StopsFor base s t none
  | corrupt (corruption : Corruption) (hserved : s.AllServed t) :
      StopsFor base s t (some (.corruptChunkSequence base corruption))
  | refused {refusal : StorageError} (hends : s.EndsRefused t refusal) :
      StopsFor base s t (some (.backendUnavailable refusal))

/-- Since it was opened the reader has looked up each chunk so far once, and was served. -/
structure Steady (base : String) (s₀ : ChunkStore) (r : ChunkReader) (s : ChunkStore) : Prop where
  store : s = s₀.afterAll (loadCalls base r.nextIndex.toNat)
  served : s₀.AllServed s
  count : r.nextIndex.toNat ≤ r.manifest.chunks.toNat
  base : r.base = base

/-- Reading has stopped for this reason, and no chunk was looked up twice. -/
structure Stopped (base : String) (s₀ : ChunkStore) (failure : Option VaultError)
    (t : ChunkStore) : Prop where
  outcome : StopsFor base s₀ t failure
  once : ∃ count < UInt64.size, t = s₀.afterAll (loadCalls base count)

variable {base : String} {r r' : ChunkReader} {s s₀ t : ChunkStore}

theorem StopsFor.ofReader {error : VaultError} (hstops : StopsFor base s t (some error)) :
    error.OfReader := by
  cases hstops with
  | corrupt corruption => exact .corruptChunkSequence base corruption
  | refused => exact .backendUnavailable _

/-- The next chunk is looked up for the first time. -/
theorem Steady.after (hsteady : Steady base s₀ r s) :
    s.after (.load (chunkKey base r.nextIndex)) =
      s₀.afterAll (loadCalls base (r.nextIndex.toNat + 1)) := by
  rw [loadCalls_succ, ChunkStore.afterAll_append, ← hsteady.store, UInt64.ofNat_toNat]
  rfl

theorem Steady.stopped (hsteady : Steady base s₀ r s) {failure : Option VaultError}
    (houtcome : StopsFor base s₀ s failure) : Stopped base s₀ failure s where
  outcome := houtcome
  once := ⟨_, r.nextIndex.toNat_lt, hsteady.store⟩

theorem Steady.nextChunk (hsteady : Steady base s₀ r s) :
    match r.nextChunk s with
    | (.error error, t) => Stopped base s₀ (some error) t
    | (.ok none, t) => Stopped base s₀ none t
    | (.ok (some chunk), t) => Steady base s₀ (r.take chunk) t := by
  by_cases hlast : r.nextIndex = r.manifest.chunks
  · rw [nextChunk_of_last hlast, hsteady.base]
    split <;> rename_i heq <;> split at heq <;> cases heq
    · exact hsteady.stopped (.corrupt _ hsteady.served)
    · exact hsteady.stopped (.ended hsteady.served)
  · have hmore : r.nextIndex.toNat + 1 ≤ r.manifest.chunks.toNat :=
      Nat.lt_of_le_of_ne hsteady.count fun heq => hlast (UInt64.toNat_inj.1 heq)
    have hbound : r.nextIndex.toNat + 1 < 2 ^ 64 :=
      Nat.lt_of_le_of_lt hmore r.manifest.chunks.toNat_lt
    have honce : ∃ count < UInt64.size,
        s.after (.load (chunkKey base r.nextIndex)) = s₀.afterAll (loadCalls base count) :=
      ⟨_, hbound, hsteady.after⟩
    rw [nextChunk_of_more hlast, hsteady.base]
    cases hrefusal : s.refusal? (.load (chunkKey base r.nextIndex)) with
    | some refusal => exact ⟨.refused ⟨s, _, hsteady.served, hrefusal, rfl⟩, honce⟩
    | none =>
      have hserved := hsteady.served.trans (ChunkStore.allServed_after hrefusal)
      cases s.contents[chunkKey base r.nextIndex]? with
      | none =>
        rw [inspect, hsteady.base]
        exact ⟨.corrupt _ hserved, honce⟩
      | some chunk =>
        cases hfault : r.lengthFault? chunk.length with
        | some fault =>
          simp only [inspect, hfault, hsteady.base]
          exact ⟨.corrupt _ hserved, honce⟩
        | none =>
          have hindex : (r.nextIndex + 1).toNat = r.nextIndex.toNat + 1 := by
            rw [UInt64.toNat_add, UInt64.toNat_one, Nat.mod_eq_of_lt hbound]
          simp only [inspect, hfault]
          refine ⟨?_, hserved, ?_, hsteady.base⟩
          · rw [hsteady.after, take, hindex]
          · rw [take, hindex]
            exact hmore

theorem Steady.refill (hsteady : Steady base s₀ r s) :
    match r.refill s with
    | (.error error, _, t) => Stopped base s₀ (some error) t
    | (.ok _, r', t) => Steady base s₀ r' t ∧ (r'.pending = [] → Stopped base s₀ none t) := by
  fun_induction ChunkReader.refill r s with
  | case1 r s hpending => exact ⟨hsteady, fun hnil => absurd hnil hpending⟩
  | case2 r s hpending t error hnext =>
    have hgot := hsteady.nextChunk
    rw [hnext] at hgot
    exact hgot
  | case3 r s hpending t hnext =>
    have hgot := hsteady.nextChunk
    rw [hnext] at hgot
    obtain rfl := eq_of_nextChunk_end hnext
    exact ⟨hsteady, fun _ => hgot⟩
  | case4 r s hpending t chunk hnext ih =>
    have hgot := hsteady.nextChunk
    rw [hnext] at hgot
    exact ih hgot

theorem Steady.hand (hsteady : Steady base s₀ r s) (size : Nat) :
    Steady base s₀ (r.hand size) s where
  store := hsteady.store
  served := hsteady.served
  count := hsteady.count
  base := hsteady.base

/-- A read goes on from where the last one was, or it is the last one. -/
theorem Steady.read (hsteady : Steady base s₀ r s) {size : Nat} (hsize : 0 < size) :
    match r.read size s with
    | (.error failure, _, t) => Stopped base s₀ (some (.ofStream failure)) t
    | (.ok bytes, r', t) => Steady base s₀ r' t ∧ (bytes = [] → Stopped base s₀ none t) := by
  have hrefill := hsteady.refill
  rcases hresult : r.refill s with ⟨error | _, r', t⟩ <;> rw [hresult] at hrefill
  · rw [read_of_refill_error hsize hresult]
    rwa [← hrefill.outcome.ofReader.ofStream_toStream] at hrefill
  · rw [read_of_refill_ok hsize hresult]
    refine ⟨hrefill.1.hand size, fun hnil => ?_⟩
    exact hrefill.2 ((List.take_eq_nil_iff.1 hnil).resolve_left (Nat.ne_of_gt hsize))

/-- A reader that was opened has looked up no chunk yet. -/
theorem steady_of_create (hcreate : create base s = (.ok r, t)) : Steady base t r t := by
  obtain ⟨manifest, rfl, -⟩ := eq_of_create_ok hcreate
  exact ⟨rfl, .refl t, Nat.zero_le _, rfl⟩

end ChunkReader

namespace Source

/-- The source is a value of a chunk store, or tracks one however often. -/
inductive Wraps (id : StoreId) (r : ChunkReader) : Source → Prop where
  | chunks : Wraps id r (.chunks id r)
  | tracked {inner : Source} (tracker : Tracker) (hinner : Wraps id r inner) :
      Wraps id r (.tracked inner tracker)

variable {id other : StoreId} {r : ChunkReader} {source wrapped : Source}

theorem Wraps.of_track {digesters : List Digest.Digester} (hwraps : source.Wraps id r)
    (htrack : digesters.foldlM track source = .ok wrapped) : wrapped.Wraps id r := by
  induction digesters generalizing source with
  | nil =>
    cases htrack
    exact hwraps
  | cons digester digesters ih =>
    rw [List.foldlM_cons] at htrack
    cases hclone : digester.clone with
    | error error =>
      rw [track, hclone] at htrack
      cases htrack
    | ok clone =>
      rw [track, hclone] at htrack
      exact ih (.tracked _ hwraps) htrack

/-- Reading such a source reads the value and nothing else. -/
theorem Wraps.of_read {size : Nat} {stores stores' : Stores} {result : Except IoError Bytes}
    {after : Source} (hwraps : source.Wraps id r)
    (hread : source.read size stores = (result, after, stores')) :
    ∃ r' s', r.read size (stores.get id) = (result, r', s') ∧ after.Wraps id r' ∧
      stores' = stores.insert id s' := by
  induction hwraps generalizing result after stores' with
  | chunks =>
    cases hread
    exact ⟨_, _, rfl, .chunks, rfl⟩
  | @tracked inner tracker hinner ih =>
    rcases hinside : inner.read size stores with ⟨result', after', stores''⟩
    rw [Source.read, hinside] at hread
    cases hread
    obtain ⟨r', s', hreader, hwraps', hstores⟩ := ih hinside
    exact ⟨r', s', hreader, .tracked _ hwraps', hstores⟩

/-- Whatever changes in other stores, such a source yields what is ahead of its reader. -/
theorem Wraps.yields {base : String} {size : Nat} {stores : Stores} (hsize : 0 < size)
    (hwraps : source.Wraps id r) (hother : id ≠ other) :
    source.Yields (Stores.ChangesAt other base) size stores (r.ahead (stores.get id)).1
      ((r.ahead (stores.get id)).2.map VaultError.toStream) := by
  -- Every read with bytes lessens the weight of the reader.
  induction hweight : r.weight using Nat.strongRecOn generalizing r source stores with
  | ind weight ih =>
    rcases hread : source.read size stores with ⟨failure | bytes, after, stores'⟩
    all_goals obtain ⟨r', s', hreader, hafter, rfl⟩ := hwraps.of_read hread
    · obtain ⟨error, hahead, rfl⟩ := ChunkReader.ahead_of_read_error hreader
      rw [hahead]
      exact .failed hread (ChunkReader.isInterrupted_of_read hreader)
    · obtain ⟨hsplit, hend⟩ := ChunkReader.ahead_of_read_ok hsize hreader
      by_cases hbytes : bytes = []
      · subst hbytes
        rw [hend rfl]
        exact .ended hread
      · rw [hsplit]
        refine .piece hread hbytes fun now hnow => ?_
        have hget : now.get id = s' := by
          rw [hnow.others id hother, Stores.get_insert_self]
        have hlighter := ChunkReader.weight_read hreader hbytes
        rw [← hget]
        exact ih _ (hweight ▸ hlighter) hafter rfl

end Source

namespace Entry

open ChunkReader (Steady Stopped)
open ChunkWriter (writing)

variable {id other : StoreId} {r : ChunkReader} {source : Source} {stores : Stores}
  {base : String} {s₀ : ChunkStore}

/-- A read of the copy goes on from where the last one was, or finds the end. -/
theorem steady_of_read {piece : Bytes} {after : Source} {stores' : Stores}
    (hwraps : source.Wraps id r) (hsteady : Steady base s₀ r (stores.get id))
    (hread : source.read copySize stores = (.ok piece, after, stores')) :
    ∃ r' s', after.Wraps id r' ∧ stores' = stores.insert id s' ∧ Steady base s₀ r' s' ∧
      (r.ahead (stores.get id)).2 = (r'.ahead s').2 ∧
      (piece = [] → (r.ahead (stores.get id)).2 = none ∧ Stopped base s₀ none s') := by
  have hsize : 0 < copySize := by decide
  obtain ⟨r', s', hreader, hafter, hstores⟩ := hwraps.of_read hread
  obtain ⟨hahead, hend⟩ := ChunkReader.ahead_of_read_ok hsize hreader
  have hgot := hsteady.read hsize
  rw [hreader] at hgot
  refine ⟨r', s', hafter, hstores, hgot.1, ?_, fun hnil => ⟨?_, hgot.2 hnil⟩⟩
  · rw [hahead]
  · rw [hend hnil]

/-- A read of the copy that fails is not tried again, and its error is told as it was. -/
theorem stopped_of_read {error : IoError} {after : Source} {stores' : Stores}
    (hwraps : source.Wraps id r) (hsteady : Steady base s₀ r (stores.get id))
    (hread : source.read copySize stores = (.error error, after, stores')) :
    error.isInterrupted = false ∧
      (r.ahead (stores.get id)).2 = some (.ofStream error) ∧
      Stopped base s₀ (some (.ofStream error)) (stores'.get id) := by
  have hsize : 0 < copySize := by decide
  obtain ⟨r', s', hreader, -, rfl⟩ := hwraps.of_read hread
  obtain ⟨cause, hahead, rfl⟩ := ChunkReader.ahead_of_read_error hreader
  have hcause : cause.OfReader := ChunkReader.ofReader_of_beyond (congrArg Prod.snd hahead)
  have hgot := hsteady.read hsize
  rw [hreader] at hgot
  rw [hahead, Stores.get_insert_self]
  exact ⟨ChunkReader.isInterrupted_of_read hreader, congrArg some hcause.ofStream_toStream.symm,
    hgot⟩

/-- Whatever reading did to its store, another store that refuses nothing takes every piece. -/
theorem write_eq_of_serves {base' : String} {chunkSize : ChunkSize} {replaced : UInt64}
    {accepted piece : Bytes} {s' : ChunkStore} (hother : id ≠ other)
    (hserves : (stores.get other).ServesAll) :
    ∃ t : ChunkStore, t.ServesAll ∧
      (writing base' chunkSize replaced accepted).write piece
          (Stores.get (stores.insert id s') other) =
        (.ok (), writing base' chunkSize replaced (accepted ++ piece), t) := by
  rw [Stores.get_insert_of_ne _ _ hother.symm]
  exact ⟨_, hserves.afterAll _, (ChunkWriter.write_writing base' chunkSize replaced accepted piece
    (stores.get other)).of_serves (hserves.servesWriting base')⟩

/-- Copying to another store, where nothing is refused, stops for what is behind the bytes ahead
of the reader. -/
theorem Copies.stopped {writer : ChunkWriter} {bytes accepted : Bytes} {copied : Copied}
    {base' : String} {chunkSize : ChunkSize} {replaced : UInt64}
    (hcopies : Copies other writer source stores bytes copied) (hwraps : source.Wraps id r)
    (hother : id ≠ other) (hsteady : Steady base s₀ r (stores.get id))
    (hserves : (stores.get other).ServesAll)
    (hwriter : writer = writing base' chunkSize replaced accepted) :
    copied.failure = (r.ahead (stores.get id)).2 ∧
      Stopped base s₀ copied.failure (copied.stores.get id) := by
  induction hcopies generalizing r accepted with
  | ended hread =>
    obtain ⟨r', s', -, rfl, -, -, hend⟩ := steady_of_read hwraps hsteady hread
    obtain ⟨hnone, hstopped⟩ := hend rfl
    rw [hnone, Stores.get_insert_self]
    exact ⟨rfl, hstopped⟩
  | @accepted writer writer' source after stores stores' t piece bytes copied hread hpiece hwrite
      hrest ih =>
    subst hwriter
    obtain ⟨r', s', hafter, rfl, hsteady', hsame, -⟩ := steady_of_read hwraps hsteady hread
    obtain ⟨u, hserves', hwritten⟩ := write_eq_of_serves hother hserves
    cases hwrite.symm.trans hwritten
    have hget : Stores.get ((stores.insert id s').insert other t) id = s' := by
      rw [Stores.get_insert_of_ne _ _ hother, Stores.get_insert_self]
    rw [← hget] at hsteady' hsame
    rw [hsame]
    exact ih hafter hsteady' (by rwa [Stores.get_insert_self]) rfl
  | rejected hread hpiece hwrite =>
    subst hwriter
    obtain ⟨r', s', -, rfl, -⟩ := steady_of_read hwraps hsteady hread
    obtain ⟨u, -, hwritten⟩ := write_eq_of_serves hother hserves
    cases hwrite.symm.trans hwritten
  | again hread hinterrupted hrest ih =>
    obtain ⟨hnot, -⟩ := stopped_of_read hwraps hsteady hread
    rw [hnot] at hinterrupted
    cases hinterrupted
  | failed hread hinterrupted =>
    obtain ⟨-, hahead, hstopped⟩ := stopped_of_read hwraps hsteady hread
    exact ⟨hahead.symm, hstopped⟩

theorem storeChunks_stopped {key : ContentKey} {handle : StoreHandle} {chunkSize : ChunkSize}
    (hwraps : source.Wraps id r) (hother : id ≠ handle.id)
    (hsteady : Steady base s₀ r (stores.get id)) (hbuffer : chunkSize.IsAllocatable)
    (hserves : (stores.get handle.id).ServesAll) :
    Stopped base s₀ (r.ahead (stores.get id)).2
      ((storeChunks key handle chunkSize source stores).2.2.get id) := by
  have hcreate := ChunkWriter.create_of_serves hbuffer (hserves.servesWriting key.dataKey)
  have hbegun := hserves.afterAll [.load key.dataKey, .remove key.dataKey]
  generalize (stores.get handle.id).afterAll [.load key.dataKey, .remove key.dataKey] = s
    at hcreate hbegun
  have hget := Stores.get_insert_of_ne stores s hother
  obtain ⟨bytes, hcopies⟩ := exists_copies handle.id _ source (stores.insert handle.id s)
  obtain ⟨hfailure, hstopped⟩ := hcopies.stopped hwraps hother (hget ▸ hsteady)
    (by rw [Stores.get_insert_self]; exact hbegun) rfl
  rw [storeChunks_of_copies hcreate hcopies, Stores.get_insert_of_ne _ _ hother, ← hget,
    ← hfailure]
  exact hstopped

/-- A value of a chunk store is opened by its reader and nothing else. -/
theorem exists_reader_of_openRead {key : ContentKey} {handle : StoreHandle} {chunkSize : ChunkSize}
    {v v' : Vault} {opened : Source}
    (hopen : (Entry.mk (.chunked handle chunkSize) key).openRead v = (.ok opened, v')) :
    ∃ r s, ChunkReader.create key.dataKey (v.stores.get handle.id) = (.ok r, s) ∧
      opened = .chunks handle.id r ∧ v'.stores = v.stores.insert handle.id s := by
  simp only [openRead, Stores.update_eq] at hopen
  split at hopen
  · cases hopen
  · rename_i heq
    cases hopen
    rw [Prod.mk.injEq] at heq
    obtain ⟨hcreate, rfl⟩ := heq
    exact ⟨_, _, Prod.ext hcreate rfl, rfl, rfl⟩

/-- A value that is opened and stored again in a store that refuses nothing, with any number of
digests taken on the way: where its reader comes to the end, it is stored; otherwise the error of
the reader is told as it is, and no load was tried again.  What can be read back are the bytes
before, if a manifest can record how many they are. -/
theorem store_of_openRead {handle handle' : StoreHandle} (chunkSize chunkSize' : ChunkSize)
    (key key' : ContentKey) (digesters : List Digest.Digester) {v v' : Vault}
    {opened wrapped : Source} {size : Nat} (hother : handle.id ≠ handle'.id)
    (hbuffer : chunkSize'.IsAllocatable) (hserves : (v.stores.get handle'.id).ServesAll)
    (hopen : (Entry.mk (.chunked handle chunkSize) key).openRead v = (.ok opened, v'))
    (htrack : digesters.foldlM Source.track opened = .ok wrapped) (hsize : 0 < size) :
    let drained := opened.drain size v'.stores
    ∃ failure left v'', (Entry.mk (.chunked handle' chunkSize') key').store wrapped v' =
        (match failure with
          | none => .ok key'
          | some error => .error (.reported error), left, v'') ∧
      drained.failure = failure.map VaultError.toStream ∧
      Stopped key.dataKey (v'.stores.get handle.id) failure (v''.stores.get handle.id) ∧
      (drained.bytes.length < UInt64.size → ∀ held : ChunkSize, ∃ copy v''',
        (Entry.mk (.chunked handle' held) key').openRead v'' = (.ok copy, v''') ∧
          ∀ sizes : Nat → Nat, (∀ turn, 0 < sizes turn) →
            copy.Delivers sizes v'''.stores drained.bytes) := by
  intro drained
  obtain ⟨r, s, hcreate, rfl, hstores⟩ := exists_reader_of_openRead hopen
  have hget : v'.stores.get handle.id = s := by
    rw [hstores, Stores.get_insert_self]
  have hserves' : (v'.stores.get handle'.id).ServesAll := by
    rw [hstores, Stores.get_insert_of_ne _ _ hother.symm]
    exact hserves
  have hwraps : wrapped.Wraps handle.id r := Source.Wraps.chunks.of_track htrack
  obtain ⟨hbytes, hfailure⟩ := (Source.Promises.chunks handle.id r v'.stores).drain hsize
  have hsource (now : Stores) (hnow : v'.stores.ChangesAt handle'.id key'.dataKey now) :
      wrapped.Yields (Stores.ChangesAt handle'.id key'.dataKey) copySize now drained.bytes
        drained.failure := by
    have hyields : wrapped.Yields (Stores.ChangesAt handle'.id key'.dataKey) copySize now _ _ :=
      hwraps.yields (by decide) hother
    rw [hnow.others _ hother] at hyields
    rw [hbytes, hfailure]
    exact hyields
  have hsteady : Steady key.dataKey s r (v'.stores.get handle.id) := by
    rw [hget]
    exact ChunkReader.steady_of_create hcreate
  have hstopped : Stopped key.dataKey s (r.ahead (v'.stores.get handle.id)).2
      ((storeChunks key' handle' chunkSize' wrapped v'.stores).2.2.get handle.id) :=
    storeChunks_stopped hwraps hother hsteady hbuffer hserves'
  obtain ⟨left, stores'', hstore, hserves'', hcontents⟩ :=
    storeChunks_of_yields key' handle' hbuffer hserves' hsource
  rw [hstore] at hstopped
  refine ⟨(r.ahead (v'.stores.get handle.id)).2, left, { v' with stores := stores'' }, ?_,
    hfailure, hget ▸ hstopped, fun hfits held => ?_⟩
  · rw [store_chunked, hstore, hfailure]
    cases hahead : (r.ahead (v'.stores.get handle.id)).2 with
    | none => rfl
    | some error =>
      have herror : error.OfReader := ChunkReader.ofReader_of_beyond hahead
      rw [Option.map_some, Option.elim_some, herror.ofStream_toStream]
  · have hvalue := Contents.holdsValue_overwrite key'.dataKey chunkSize'
      (v'.stores.get handle'.id).contents hfits
    rw [← hcontents] at hvalue
    obtain ⟨copy, v''', hopen', hpromises⟩ := exists_openRead_of_holdsValue key' handle' held
      { v' with stores := stores'' } hserves''.servesLoads hvalue hfits
    exact ⟨copy, v''', hopen', fun sizes hsizes => hpromises.delivers hsizes⟩

def hastyStore : ChunkStore where
  contents := (((∅ : Contents).insert "a-data/0" [1, 2]).insert "a-data/1" [3]).insert "a-data"
    (Manifest.mk 2 3 2).encode
  plan := fun tally call =>
    match call with
    | .load _ => if tally.loads = 2 then some (.io (.plain .interrupted)) else none
    | _ => none

def hastyVault : Vault :=
  { Vault.ofTree .empty with stores := (∅ : Stores).insert 0 hastyStore }

def hastyReader : ChunkReader := ⟨"a-data", ⟨2, 3, 2⟩, 0, [], 0⟩

theorem create_hastyStore : ChunkReader.create "a-data" hastyStore =
    (.ok hastyReader, hastyStore.after (.load "a-data")) :=
  ChunkReader.create_of_served rfl
    ⟨⟨_, Std.ExtTreeMap.getElem?_insert_self, Manifest.decode_encode _⟩, by decide⟩

/-- The first chunk is ahead of the reader, and the interruption is behind it. -/
theorem ahead_hastyReader : hastyReader.ahead (hastyStore.after (.load "a-data")) =
    ([1, 2], some (.backendUnavailable (.io (.plain .interrupted)))) := by
  let opened := hastyStore.after (.load "a-data")
  let s := opened.after (.load (chunkKey "a-data" 0))
  have hserved : opened.refusal? (.load (chunkKey "a-data" 0)) = none := rfl
  have hchunk : opened.contents[chunkKey "a-data" 0]? = some [1, 2] := by decide +kernel
  have hfirst : hastyReader.nextChunk opened = (.ok (some [1, 2]), s) := by
    rw [ChunkReader.nextChunk_of_more (by decide)]
    rw [hastyReader, hserved, hchunk]
    rfl
  have hrefusal : s.refusal? (.load (chunkKey "a-data" 1)) =
      some (.io (.plain .interrupted)) := rfl
  have hsecond : (hastyReader.take [1, 2]).spend.nextChunk s =
      (.error (.backendUnavailable (.io (.plain .interrupted))), _) :=
    ChunkReader.nextChunk_of_more (by decide) s
  rw [ChunkReader.ahead_of_pending_nil rfl, ChunkReader.beyond_of_chunk hfirst, ChunkReader.ahead,
    ChunkReader.beyond_of_error hsecond]
  rfl

def hastyEntry (id : StoreId) (key : String) (chunkSize : ChunkSize) : Entry :=
  ⟨.chunked ⟨id, .ofLoader Backend.memoryLoader⟩ chunkSize, ⟨key⟩⟩

/-- The value as it is opened, with two digests taken on the way. -/
def hastySource : Source :=
  .tracked (.tracked (.chunks 0 hastyReader) (.start (.start .sha1))) (.start (.start .md5))

def openedVault : Vault :=
  { hastyVault with stores := hastyVault.stores.insert 0 (hastyStore.after (.load "a-data")) }

theorem servesAll_hastyVault : (hastyVault.stores.get 1).ServesAll := by
  rw [hastyVault, Stores.get_insert_of_ne _ _ (by decide)]
  exact fun _ _ => rfl

theorem openRead_hastyVault : (hastyEntry 0 "a" .standard).openRead hastyVault =
    (.ok (.chunks 0 hastyReader), openedVault) := by
  have hget : hastyVault.stores.get 0 = hastyStore := Stores.get_insert_self ∅ 0 hastyStore
  have hcreate : ChunkReader.create (ContentKey.mk "a").dataKey (hastyVault.stores.get 0) = _ :=
    hget ▸ create_hastyStore
  simp only [hastyEntry, openRead, Stores.update_eq, hcreate]
  rfl

theorem track_hastySource :
    [Digest.Digester.start .sha1, .start .md5].foldlM Source.track (.chunks 0 hastyReader) =
      .ok hastySource := rfl

/-- On its way through two digests the interruption is not taken for one of the stream: it is
told as the refusal it is, and the copy ends with the first chunk. -/
theorem store_of_openRead_hastyVault :
    ∃ left copy v' v'',
      (hastyEntry 0 "a" .standard).openRead hastyVault =
        (.ok (.chunks 0 hastyReader), openedVault) ∧
      (hastyEntry 1 "b" .standard).store hastySource openedVault =
        (.error (.reported (.backendUnavailable (.io (.plain .interrupted)))), left, v') ∧
      (hastyEntry 1 "b" ⟨1, by decide⟩).openRead v' = (.ok copy, v'') ∧
      copy.Delivers (fun _ => 5) v''.stores [1, 2] := by
  have hgetOpened : openedVault.stores.get 0 = hastyStore.after (.load "a-data") :=
    Stores.get_insert_self _ 0 _
  let handle (id : StoreId) : StoreHandle := ⟨id, .ofLoader Backend.memoryLoader⟩
  have hother : (handle 0).id ≠ (handle 1).id := by decide
  obtain ⟨failure, left, v', hstore, hfailure, hstopped, hcopy⟩ :=
    store_of_openRead .standard .standard ⟨"a"⟩ ⟨"b"⟩ _ hother (by decide) servesAll_hastyVault
      openRead_hastyVault track_hastySource Nat.one_pos
  obtain ⟨hbytes, hdrained⟩ :=
    (Source.Promises.chunks 0 hastyReader openedVault.stores).drain Nat.one_pos
  rw [hgetOpened, ahead_hastyReader] at hbytes hdrained
  have hcause : failure = some (.backendUnavailable (.io (.plain .interrupted))) := by
    cases failure with
    | none => cases hdrained.symm.trans hfailure
    | some error =>
      have hstream := Option.some.inj (hdrained.symm.trans hfailure)
      rw [← hstopped.outcome.ofReader.ofStream_toStream, ← hstream]
      rfl
  obtain ⟨copy, v'', hopen', hdelivers⟩ := hcopy (by rw [hbytes]; decide) ⟨1, by decide⟩
  rw [hcause] at hstore
  rw [hbytes] at hdelivers
  exact ⟨left, copy, v', v'', openRead_hastyVault, hstore, hopen', hdelivers _ fun _ => by decide⟩

/-- It is not so that a value that could be opened is stored again in chunks of any size, or its
reader's error told: for the largest ones it is not even read. -/
theorem store_panics_openedVault :
    (hastyVault.stores.get 1).ServesAll ∧
      (hastyEntry 0 "a" .standard).openRead hastyVault =
        (.ok (.chunks 0 hastyReader), openedVault) ∧
      [Digest.Digester.start .sha1, .start .md5].foldlM Source.track (.chunks 0 hastyReader) =
        .ok hastySource ∧
      ∃ v', (hastyEntry 1 "b" ChunkWriter.hugeChunkSize).store hastySource openedVault =
        (.error .panicked, hastySource, v') := by
  have hserves : (openedVault.stores.get 1).ServesAll := by
    rw [openedVault, Stores.get_insert_of_ne _ _ (by decide)]
    exact servesAll_hastyVault
  obtain ⟨v', hstore, -⟩ := exists_panic_of_not_allocatable ⟨"b"⟩
    ⟨1, .ofLoader Backend.memoryLoader⟩ hastySource openedVault
    ChunkWriter.not_allocatable_hugeChunkSize hserves
  exact ⟨servesAll_hastyVault, openRead_hastyVault, track_hastySource, v', hstore⟩

end Entry

end ContentVault
