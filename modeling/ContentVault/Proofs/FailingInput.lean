import ContentVault.Proofs.CompletedWrite
import ContentVault.Proofs.RoundTrip

/-!
# Inputs that fail

A source may fail on its way into a store, and so may the store.  The failure that comes
first is the one that is told.  If it is that of the source, the bytes before it are
completed as a value of their own, in the same way as if the source had ended there.
-/

namespace ContentVault

open ChunkStore (Calls)

/-- What served calls make of the contents, one after the other. -/
def Contents.applyAll (calls : List Call) (contents : Contents) : Contents :=
  calls.foldl (fun contents call => call.apply contents) contents

theorem Contents.applyAll_append (calls more : List Call) (contents : Contents) :
    contents.applyAll (calls ++ more) = (contents.applyAll calls).applyAll more :=
  List.foldl_append

theorem ChunkStore.ServesAll.contents_afterAll {s : ChunkStore} (hserves : s.ServesAll)
    (calls : List Call) : (s.afterAll calls).contents = s.contents.applyAll calls := by
  induction calls generalizing s with
  | nil => rfl
  | cons call calls ih =>
    have hserves' : (s.after call).ServesAll := hserves
    rw [afterAll_cons, ih hserves', contents_after_of_served _ _ (hserves.refusal?_eq call)]
    rfl

/-- The contents once a value was written over them and nothing was refused. -/
def Contents.overwrite (base : String) (chunkSize : ChunkSize) (value : Bytes)
    (contents : Contents) : Contents :=
  contents.applyAll ([.load base, .remove base] ++
    (chunkCalls base chunkSize.toNat value (List.range (value.length / chunkSize.toNat)) ++
      (ChunkWriter.writing base chunkSize (contents.recordedChunks base) value).finishCalls))

/-- Overwriting is what writing a value in a store of its own comes to. -/
theorem Contents.exists_overwrites (base : String) (chunkSize : ChunkSize) {value : Bytes}
    (contents : Contents) (hfits : value.length < UInt64.size) :
    ∃ events t, Overwrites base chunkSize value (contents.recordedChunks base).toNat events
      { contents } t ∧ t.contents = contents.overwrite base chunkSize value := by
  have hserves : ChunkStore.ServesAll { contents } := fun _ _ => rfl
  refine ⟨_, _, overwrites_afterAll (hserves.servesWriting base) hfits
    (contents.recordedChunks base).toNat_lt, ?_⟩
  rw [overwrite, ChunkWriter.finishCalls_writing _ _ _ hfits, hserves.contents_afterAll,
    layoutCalls, List.append_assoc]

theorem Contents.holdsValue_overwrite (base : String) (chunkSize : ChunkSize) {value : Bytes}
    (contents : Contents) (hfits : value.length < UInt64.size) :
    (contents.overwrite base chunkSize value).HoldsValue base chunkSize value := by
  obtain ⟨events, t, hover, heq⟩ := contents.exists_overwrites base chunkSize hfits
  rw [← heq]
  refine ⟨hover.manifest, fun i hi => ?_⟩
  have hchunk := hover.chunks i.toNat (by
    rw [UInt64.lt_iff_toNat_lt, toNat_chunks_manifestOf chunkSize hfits] at hi
    exact hi)
  rw [UInt64.ofNat_toNat] at hchunk
  exact hchunk

namespace Entry

open ChunkWriter (writing)

section FaultFree

variable {id : StoreId} {base : String} {source : Source} {stores : Stores}
  {value : Bytes} {failure : Option IoError}

/-- A store that serves every call lets a source be copied up to its end or failure, and
takes all bytes before it. -/
theorem exists_copies_of_yields (chunkSize : ChunkSize) (replaced : UInt64) (accepted : Bytes)
    (contents : Contents)
    (hyields : source.Yields (Stores.ChangesAt id base) copySize stores value failure)
    (hserves : (stores.get id).ServesAll)
    (hcontents : (stores.get id).contents = contents.applyAll
      (chunkCalls base chunkSize.toNat accepted (List.range (accepted.length / chunkSize.toNat)))) :
    ∃ copied, Copies id (writing base chunkSize replaced accepted) source stores value copied ∧
      copied.failure = failure.map VaultError.ofStream ∧
      copied.writer = writing base chunkSize replaced (accepted ++ value) ∧
      (copied.stores.get id).ServesAll ∧
      (copied.stores.get id).contents = contents.applyAll (chunkCalls base chunkSize.toNat
        (accepted ++ value) (List.range ((accepted ++ value).length / chunkSize.toNat))) := by
  induction hyields generalizing accepted with
  | @ended source after stores stores' hread =>
    have hcalls := Source.calls_of_read hread id
    rw [← hcalls.contents_eq_of_isLoad] at hcontents
    rw [List.append_nil]
    exact ⟨_, .ended hread, rfl, rfl, hserves.of_calls hcalls, hcontents⟩
  | @failed source after stores stores' error hread hfinal =>
    have hcalls := Source.calls_of_read hread id
    rw [← hcalls.contents_eq_of_isLoad] at hcontents
    rw [List.append_nil]
    exact ⟨_, .failed hread (Bool.eq_false_iff.1 hfinal), rfl, rfl, hserves.of_calls hcalls,
      hcontents⟩
  | @piece source after stores stores' piece bytes failure hread hpiece hrest ih =>
    have hcalls := Source.calls_of_read hread id
    have hserves' := hserves.of_calls hcalls
    have hwrite := (ChunkWriter.write_writing base chunkSize replaced accepted piece
      (stores'.get id)).of_serves (hserves'.servesWriting base)
    have hwrites := ChunkWriter.calls_write (writing base chunkSize replaced accepted) piece
      (stores'.get id)
    generalize hs : (stores'.get id).afterAll _ = s at hwrite
    rw [hwrite] at hwrites
    have hget : Stores.get (stores'.insert id s) id = s := Stores.get_insert_self _ _ _
    have hchanges : stores'.ChangesAt id base (stores'.insert id s) :=
      .insert (hwrites.mono fun call hcall => hcall.within)
    have hcontents' : (Stores.get (stores'.insert id s) id).contents =
        contents.applyAll (chunkCalls base chunkSize.toNat (accepted ++ piece)
          (List.range ((accepted ++ piece).length / chunkSize.toNat))) := by
      rw [hget, ← hs, hserves'.contents_afterAll, hcalls.contents_eq_of_isLoad, hcontents,
        ← Contents.applyAll_append, chunkCalls_append]
    obtain ⟨copied, hcopies, hfailure, hwriter, hcopied⟩ := ih _ hchanges (accepted ++ piece)
      (by rw [hget]; exact hserves'.of_calls hwrites) hcontents'
    rw [List.append_assoc] at hwriter hcopied
    exact ⟨copied, .accepted hread hpiece hwrite hcopies, hfailure, hwriter, hcopied⟩
  | @again source after stores stores' bytes error failure hread hinterrupted hrest ih =>
    have hcalls := Source.calls_of_read hread id
    rw [← hcalls.contents_eq_of_isLoad] at hcontents
    obtain ⟨copied, hcopies, hcopied⟩ := ih accepted (hserves.of_calls hcalls) hcontents
    exact ⟨copied, .again hread hinterrupted hcopies, hcopied⟩

/-- Storing a source writes the bytes before its end or failure over what was there, and
tells of the failure. -/
theorem storeChunks_of_yields (key : ContentKey) (handle : StoreHandle) {chunkSize : ChunkSize}
    (hbuffer : chunkSize.IsAllocatable) (hserves : (stores.get handle.id).ServesAll)
    (hsource : ∀ now, stores.ChangesAt handle.id key.dataKey now →
      source.Yields (Stores.ChangesAt handle.id key.dataKey) copySize now value failure) :
    ∃ source' stores', storeChunks key handle chunkSize source stores =
        (failure.elim (.ok key) fun error => .error (.reported (.ofStream error)),
          source', stores') ∧
      (stores'.get handle.id).ServesAll ∧
      (stores'.get handle.id).contents =
        (stores.get handle.id).contents.overwrite key.dataKey chunkSize value := by
  generalize hbase : key.dataKey = base at hsource
  generalize hreplaced : (stores.get handle.id).contents.recordedChunks base = replaced
  have hcreate := ChunkWriter.create_of_serves hbuffer (hserves.servesWriting base)
  have hcalls := ChunkWriter.calls_create_within base chunkSize (stores.get handle.id)
  rw [hreplaced] at hcreate
  rw [hcreate] at hcalls
  generalize hs : (stores.get handle.id).afterAll [.load base, .remove base] = s at hcreate hcalls
  have hget : Stores.get (stores.insert handle.id s) handle.id = s := Stores.get_insert_self _ _ _
  have hserves' : (Stores.get (stores.insert handle.id s) handle.id).ServesAll := by
    rw [hget]
    exact hserves.of_calls hcalls
  obtain ⟨copied, hcopies, hfailure, hwriter, hserves'', hcontents⟩ :=
    exists_copies_of_yields chunkSize replaced [] s.contents (hsource _ (.insert hcalls))
      hserves' (by
      rw [hget, List.length_nil, Nat.zero_div]
      rfl)
  have hwriting : copied.writer.state = .writing := by
    rw [hwriter]
    rfl
  have hfinish := ChunkWriter.finish_of_serves hwriting
    (hserves''.servesWriting copied.writer.base)
  subst hbase
  refine ⟨copied.source, copied.stores.insert handle.id
    ((copied.stores.get handle.id).afterAll copied.writer.finishCalls), ?_, ?_, ?_⟩
  · rw [storeChunks_of_copies hcreate hcopies, hfailure, hfinish]
    cases failure <;> rfl
  · rw [Stores.get_insert_self]
    exact hserves''.of_calls (ChunkStore.calls_afterAll (fun _ _ => trivial) _)
  · rw [Stores.get_insert_self, hserves''.contents_afterAll, hcontents, hwriter, List.nil_append,
      ← hs, hserves.contents_afterAll, ← Contents.applyAll_append, ← Contents.applyAll_append,
      Contents.overwrite, hreplaced]

end FaultFree

section Run

/-- Copying has come so far: these bytes were read and the writer has accepted them. -/
inductive CopiesUpTo (id : StoreId) : ChunkWriter → Source → Stores → Bytes →
    ChunkWriter → Source → Stores → Prop where
  | start (writer : ChunkWriter) (source : Source) (stores : Stores) :
      CopiesUpTo id writer source stores [] writer source stores
  | accepted {writer writer' reached : ChunkWriter} {source after left : Source}
      {stores stores' now : Stores} {s : ChunkStore} {piece bytes : Bytes}
      (hread : source.read copySize stores = (.ok piece, after, stores')) (hpiece : piece ≠ [])
      (hwrite : writer.write piece (stores'.get id) = (.ok (), writer', s))
      (hrest : CopiesUpTo id writer' after (stores'.insert id s) bytes reached left now) :
      CopiesUpTo id writer source stores (piece ++ bytes) reached left now
  | again {writer reached : ChunkWriter} {source after left : Source}
      {stores stores' now : Stores} {bytes : Bytes} {error : IoError}
      (hread : source.read copySize stores = (.error error, after, stores'))
      (hinterrupted : error.isInterrupted = true)
      (hrest : CopiesUpTo id writer after stores' bytes reached left now) :
      CopiesUpTo id writer source stores bytes reached left now

variable {id : StoreId} {base : String} {chunkSize : ChunkSize} {replaced : UInt64}
  {writer reached : ChunkWriter} {source left : Source} {stores now : Stores}
  {value accepted before : Bytes} {failure : Option IoError}

/-- What follows completes a run of copying. -/
theorem CopiesUpTo.copies {bytes : Bytes} {copied : Copied}
    (hrun : CopiesUpTo id writer source stores accepted reached left now)
    (hrest : Copies id reached left now bytes copied) :
    Copies id writer source stores (accepted ++ bytes) copied := by
  induction hrun with
  | start => exact hrest
  | accepted hread hpiece hwrite _ ih =>
    rw [List.append_assoc]
    exact .accepted hread hpiece hwrite (ih hrest)
  | again hread hinterrupted _ ih => exact .again hread hinterrupted (ih hrest)

/-- The writer has taken the bytes after those it had before. -/
theorem CopiesUpTo.eq_writing
    (hrun : CopiesUpTo id writer source stores accepted reached left now)
    (hwriter : writer = writing base chunkSize replaced before) :
    reached = writing base chunkSize replaced (before ++ accepted) := by
  induction hrun generalizing before with
  | start => rw [hwriter, List.append_nil]
  | @accepted writer writer' _ _ _ _ _ stores' _ s piece bytes hread hpiece hwrite _ ih =>
    have hfills := ChunkWriter.write_writing base chunkSize replaced before piece
      (stores'.get id)
    rw [← hwriter, hwrite] at hfills
    rw [← List.append_assoc]
    cases hfills
    exact ih rfl
  | again _ _ _ ih => exact ih hwriter

/-- So far copying has only stored chunks and looked up keys. -/
theorem CopiesUpTo.calls (hrun : CopiesUpTo id writer source stores accepted reached left now)
    (hbase : writer.base = base) :
    Calls (fun call => call.StoresChunk base ∨ call.IsLoad) (stores.get id) (now.get id) := by
  induction hrun with
  | start => exact Calls.refl _
  | @accepted writer writer' _ _ _ _ _ stores' _ s piece bytes hread hpiece hwrite _ ih =>
    have hwrites := ChunkWriter.calls_write writer piece (stores'.get id)
    have hbase' := ChunkWriter.base_write writer piece (stores'.get id)
    rw [hwrite] at hwrites hbase'
    rw [hbase] at hwrites
    have hrest := ih (hbase'.trans hbase)
    rw [Stores.get_insert_self] at hrest
    apply ((Source.calls_of_read hread id).mono fun _ hcall => .inr hcall).trans
    exact (hwrites.mono fun _ hcall => .inl hcall).trans hrest
  | again hread _ _ ih =>
    exact ((Source.calls_of_read hread id).mono fun _ hcall => .inr hcall).trans (ih hbase)

/-- What a source yields is what was accepted so far and what is left. -/
theorem CopiesUpTo.yields (hrun : CopiesUpTo id writer source stores accepted reached left now)
    (hbase : writer.base = base)
    (hyields : source.Yields (Stores.ChangesAt id base) copySize stores value failure) :
    ∃ rest, value = accepted ++ rest ∧
      left.Yields (Stores.ChangesAt id base) copySize now rest failure := by
  induction hrun generalizing value with
  | start => exact ⟨value, rfl, hyields⟩
  | @accepted writer writer' _ _ _ _ _ stores' _ s piece bytes hread hpiece hwrite _ ih =>
    have hwrites := ChunkWriter.calls_write writer piece (stores'.get id)
    have hbase' := ChunkWriter.base_write writer piece (stores'.get id)
    rw [hwrite] at hwrites hbase'
    rw [hbase] at hwrites
    obtain ⟨rest, rfl, hrest⟩ := hyields.of_read_piece hread hpiece
    obtain ⟨rest', rfl, hleft⟩ := ih (hbase'.trans hbase)
      (hrest _ (.insert (hwrites.mono fun call hcall => hcall.within)))
    exact ⟨rest', (List.append_assoc _ _ _).symm, hleft⟩
  | again hread hinterrupted _ ih =>
    exact ih hbase (hyields.of_read_interrupted hread hinterrupted)

/-- A run of copying comes to the end of the source, to bytes that the writer does not
take, or to a failure of the source. -/
theorem Copies.exists_upTo {copied : Copied}
    (hcopies : Copies id writer source stores accepted copied) :
    ∃ reached left now, CopiesUpTo id writer source stores accepted reached left now ∧
      ((∃ after now', left.read copySize now = (.ok [], after, now')) ∨
        (∃ piece after now' error failed s, left.read copySize now = (.ok piece, after, now') ∧
          piece ≠ [] ∧ reached.write piece (now'.get id) = (.error error, failed, s)) ∨
        ∃ error after now', left.read copySize now = (.error error, after, now') ∧
          error.isInterrupted = false) := by
  induction hcopies with
  | ended hread => exact ⟨_, _, _, .start _ _ _, .inl ⟨_, _, hread⟩⟩
  | accepted hread hpiece hwrite _ ih =>
    obtain ⟨reached, left, now, hrun, hends⟩ := ih
    exact ⟨reached, left, now, .accepted hread hpiece hwrite hrun, hends⟩
  | rejected hread hpiece hwrite =>
    exact ⟨_, _, _, .start _ _ _, .inr (.inl ⟨_, _, _, _, _, _, hread, hpiece, hwrite⟩)⟩
  | again hread hinterrupted _ ih =>
    obtain ⟨reached, left, now, hrun, hends⟩ := ih
    exact ⟨reached, left, now, .again hread hinterrupted hrun, hends⟩
  | failed hread hfinal =>
    exact ⟨_, _, _, .start _ _ _, .inr (.inr ⟨_, _, _, hread, Bool.eq_false_iff.2 hfinal⟩)⟩

section Refused

variable {taken : Bytes} {after : Source} {now' : Stores} {cause : VaultError}
  {failed : ChunkWriter} {t : ChunkStore}

/-- What the writer does not take is the first chunk of the value that is refused. -/
theorem CopiesUpTo.exists_refused
    (hrun : CopiesUpTo id (writing base chunkSize replaced []) source stores accepted reached left
      now)
    (hyields : source.Yields (Stores.ChangesAt id base) copySize stores value failure)
    (hread : left.read copySize now = (.ok taken, after, now')) (htaken : taken ≠ [])
    (hwrite : reached.write taken (now'.get id) = (.error cause, failed, t)) :
    ∃ (i : Nat) (u : ChunkStore) (refusal : StorageError), i < value.length / chunkSize.toNat ∧
      u.refusal? (chunkCall base chunkSize.toNat value i) = some refusal ∧
      t = u.after (chunkCall base chunkSize.toNat value i) ∧
      cause = .chunkCommitFailed (.ofNat i) refusal := by
  obtain ⟨rest, hvalue, hleft⟩ := hrun.yields rfl hyields
  obtain ⟨rest', rfl, -⟩ := hleft.of_read_piece hread htaken
  rw [← List.append_assoc] at hvalue
  have hfills := ChunkWriter.write_writing base chunkSize replaced accepted taken
    (now'.get id)
  have hreached := hrun.eq_writing rfl
  rw [List.nil_append] at hreached
  rw [← hreached, hwrite] at hfills
  cases hfills with
  | @refused i refusal _ u hfirst hlast hbefore hserved hrefused hfailed =>
    have hfull : (i + 1) * chunkSize.toNat ≤ (accepted ++ taken).length :=
      (Nat.le_div_iff_mul_le chunkSize.toNat_pos).1 hlast
    have hcall : chunkCall base chunkSize.toNat (accepted ++ taken) i =
        chunkCall base chunkSize.toNat value i := by
      rw [hvalue, chunkCall, chunkCall, piece_append rest' hfull]
    have hle : (accepted ++ taken).length ≤ value.length := by
      rw [hvalue]
      exact (List.prefix_append (accepted ++ taken) rest').length_le
    rw [hcall] at hrefused ⊢
    exact ⟨i, u, refusal, Nat.lt_of_lt_of_le hlast (Nat.div_le_div_right hle), hrefused, rfl, rfl⟩

/-- Up to and with that chunk, copying has only stored chunks and looked up keys. -/
theorem CopiesUpTo.calls_of_write
    (hrun : CopiesUpTo id writer source stores accepted reached left now)
    (hwriter : writer = writing base chunkSize replaced before)
    (hread : left.read copySize now = (.ok taken, after, now'))
    (hwrite : reached.write taken (now'.get id) = (.error cause, failed, t)) :
    Calls (fun call => call.StoresChunk base ∨ call.IsLoad) (stores.get id) t := by
  have hwrites := ChunkWriter.calls_write reached taken (now'.get id)
  rw [hwrite, hrun.eq_writing hwriter] at hwrites
  apply (hrun.calls (congrArg ChunkWriter.base hwriter)).trans
  apply ((Source.calls_of_read hread id).mono fun _ hcall => .inr hcall).trans
  exact hwrites.mono fun _ hcall => .inl hcall

end Refused

end Run

section Storing

/-- Storing led from one vault to another as if the source had been just these bytes. -/
structure LeavesValue (key : ContentKey) (handle : StoreHandle) (chunkSize : ChunkSize)
    (value : Bytes) (v v' : Vault) : Prop where
  /-- Storing a source of just these bytes over the same contents leaves the same. -/
  contents : ∀ (other : Source) (u : Vault), (u.stores.get handle.id).ServesAll →
    (u.stores.get handle.id).contents = (v.stores.get handle.id).contents →
    (∀ now, u.stores.ChangesAt handle.id key.dataKey now →
      other.Yields (Stores.ChangesAt handle.id key.dataKey) copySize now value none) →
    ∃ other' u', (Entry.mk (.chunked handle chunkSize) key).store other u =
        (.ok key, other', u') ∧
      (u'.stores.get handle.id).contents = (v'.stores.get handle.id).contents
  /-- Later readers are delivered just these bytes. -/
  delivers : value.length < UInt64.size → ∀ chunkSize' : ChunkSize, ∃ opened v'',
    (Entry.mk (.chunked handle chunkSize') key).openRead v' = (.ok opened, v'') ∧
      ∀ sizes : Nat → Nat, (∀ turn, 0 < sizes turn) → opened.Delivers sizes v''.stores value

/-- Whatever the store refuses, storing a source that fails after these bytes tells of the
failure that comes first. -/
structure TellsFirstFailure (key : ContentKey) (handle : StoreHandle) (chunkSize : ChunkSize)
    (source : Source) (v : Vault) (value : Bytes) (error : IoError) : Prop where
  /-- If creating the writer is refused, the source is not read and nothing changes. -/
  noWriter : ∀ cause s,
    ChunkWriter.create key.dataKey chunkSize (v.stores.get handle.id) =
      (.error (.reported cause), s) →
    (∃ refusal, cause = .backendUnavailable refusal) ∧
      s.contents = (v.stores.get handle.id).contents ∧
      (Entry.mk (.chunked handle chunkSize) key).store source v =
        (.error (.reported cause), source, { v with stores := v.stores.insert handle.id s })
  /-- If creating the writer panics, the source is not read and only the manifest is gone. -/
  panics : ∀ s,
    ChunkWriter.create key.dataKey chunkSize (v.stores.get handle.id) = (.error .panicked, s) →
    ¬chunkSize.IsAllocatable ∧
      s.contents = (v.stores.get handle.id).contents.erase key.dataKey ∧
      (Entry.mk (.chunked handle chunkSize) key).store source v =
        (.error .panicked, source, { v with stores := v.stores.insert handle.id s })
  /-- Once a chunk of the value is refused, the source is read no further and no manifest is
  stored. -/
  chunkRefused : ∀ writer s accepted reached left now piece after now' cause failed t,
    ChunkWriter.create key.dataKey chunkSize (v.stores.get handle.id) = (.ok writer, s) →
    CopiesUpTo handle.id writer source (v.stores.insert handle.id s) accepted reached left now →
    left.read copySize now = (.ok piece, after, now') → piece ≠ [] →
    reached.write piece (now'.get handle.id) = (.error cause, failed, t) →
    ∃ (i : Nat) (u : ChunkStore) (refusal : StorageError), i < value.length / chunkSize.toNat ∧
      u.refusal? (chunkCall key.dataKey chunkSize.toNat value i) = some refusal ∧
      t = u.after (chunkCall key.dataKey chunkSize.toNat value i) ∧
      cause = .chunkCommitFailed (.ofNat i) refusal ∧
      (Entry.mk (.chunked handle chunkSize) key).store source v =
        (.error (.reported cause), after, { v with stores := now'.insert handle.id t }) ∧
      Calls (fun call => ∀ bytes, call ≠ .store key.dataKey bytes) (v.stores.get handle.id) t ∧
      t.contents[key.dataKey]? = none
  /-- Once the source fails, its failure is told whatever comes of finishing. -/
  inputFailed : ∀ writer s accepted reached left now cause after now',
    ChunkWriter.create key.dataKey chunkSize (v.stores.get handle.id) = (.ok writer, s) →
    CopiesUpTo handle.id writer source (v.stores.insert handle.id s) accepted reached left now →
    left.read copySize now = (.error cause, after, now') → cause.isInterrupted = false →
    cause = error ∧ accepted = value ∧
      (Entry.mk (.chunked handle chunkSize) key).store source v =
        (.error (.reported (.ofStream error)), after, { v with
          stores := now'.insert handle.id (reached.finish (now'.get handle.id)).2.2 })
  /-- With a writer, one of the two comes to pass. -/
  ends : ∀ writer s,
    ChunkWriter.create key.dataKey chunkSize (v.stores.get handle.id) = (.ok writer, s) →
    ∃ accepted reached left now, CopiesUpTo handle.id writer source
        (v.stores.insert handle.id s) accepted reached left now ∧
      ((∃ piece after now' cause failed t, left.read copySize now = (.ok piece, after, now') ∧
          piece ≠ [] ∧ reached.write piece (now'.get handle.id) = (.error cause, failed, t)) ∨
        ∃ cause after now', left.read copySize now = (.error cause, after, now') ∧
          cause.isInterrupted = false)

variable {key : ContentKey} {handle : StoreHandle} {chunkSize : ChunkSize} {source : Source}
  {v : Vault} {value : Bytes} {error : IoError}

theorem store_chunked (source : Source) (v : Vault) :
    (Entry.mk (.chunked handle chunkSize) key).store source v =
      ((storeChunks key handle chunkSize source v.stores).1,
        (storeChunks key handle chunkSize source v.stores).2.1,
        { v with stores := (storeChunks key handle chunkSize source v.stores).2.2 }) := rfl

/-- Where nothing is refused, the bytes before the failure become the value. -/
theorem exists_leavesValue (hbuffer : chunkSize.IsAllocatable)
    (hserves : (v.stores.get handle.id).ServesAll)
    (hsource : ∀ now, v.stores.ChangesAt handle.id key.dataKey now →
      source.Yields (Stores.ChangesAt handle.id key.dataKey) copySize now value (some error)) :
    ∃ source' v', (Entry.mk (.chunked handle chunkSize) key).store source v =
        (.error (.reported (.ofStream error)), source', v') ∧
      LeavesValue key handle chunkSize value v v' := by
  obtain ⟨source', stores', hstore, hserves', hcontents⟩ :=
    storeChunks_of_yields key handle hbuffer hserves hsource
  refine ⟨source', { v with stores := stores' }, ?_, ?_, ?_⟩
  · rw [store_chunked, hstore]
    rfl
  · intro other u hother hsame hyields
    obtain ⟨other', stores'', hstore', -, hcontents'⟩ :=
      storeChunks_of_yields key handle hbuffer hother hyields
    refine ⟨other', { u with stores := stores'' }, ?_, ?_⟩
    · rw [store_chunked, hstore']
      rfl
    · rw [hcontents', hsame, ← hcontents]
  · intro hfits chunkSize'
    have hvalue := Contents.holdsValue_overwrite key.dataKey chunkSize
      (v.stores.get handle.id).contents hfits
    rw [← hcontents] at hvalue
    obtain ⟨opened, v'', hopen, hpromises⟩ := exists_openRead_of_holdsValue key handle chunkSize'
      { v with stores := stores' } hserves'.servesLoads hvalue hfits
    exact ⟨opened, v'', hopen, fun sizes hsizes => hpromises.delivers hsizes⟩

/-- A writer that has failed makes no calls any more. -/
theorem store_of_copies_rejected {writer failed : ChunkWriter} {s t : ChunkStore} {bytes : Bytes}
    {cause : VaultError} {after : Source} {now : Stores}
    (hcreate : ChunkWriter.create key.dataKey chunkSize (v.stores.get handle.id) = (.ok writer, s))
    (hcopies : Copies handle.id writer source (v.stores.insert handle.id s) bytes
      ⟨some cause, failed, after, now.insert handle.id t⟩)
    (hfailed : failed.state ≠ .writing) :
    (Entry.mk (.chunked handle chunkSize) key).store source v =
      (.error (.reported cause), after, { v with stores := now.insert handle.id t }) := by
  obtain ⟨error', hfinish⟩ := ChunkWriter.finish_of_not_writing hfailed
    (Stores.get (now.insert handle.id t) handle.id)
  rw [store_chunked, storeChunks_of_copies hcreate hcopies, hfinish]
  simp only [Stores.get_insert_self, Stores.insert_insert_self]

/-- The failure that is told is the first one. -/
theorem tellsFirstFailure (hsource : ∀ now, v.stores.ChangesAt handle.id key.dataKey now →
      source.Yields (Stores.ChangesAt handle.id key.dataKey) copySize now value (some error)) :
    TellsFirstFailure key handle chunkSize source v value error := by
  have hcreates := ChunkWriter.calls_create key.dataKey chunkSize (v.stores.get handle.id)
  have hyields {writer : ChunkWriter} {s : ChunkStore}
      (hcreate : ChunkWriter.create key.dataKey chunkSize (v.stores.get handle.id) =
        (.ok writer, s)) :
      (∃ replaced, writer = writing key.dataKey chunkSize replaced []) ∧
        source.Yields (Stores.ChangesAt handle.id key.dataKey) copySize
          (v.stores.insert handle.id s) value (some error) := by
    obtain ⟨⟨replaced, rfl⟩, -⟩ := ChunkWriter.eq_of_create_ok hcreate
    have hwithin := ChunkWriter.calls_create_within key.dataKey chunkSize (v.stores.get handle.id)
    rw [hcreate] at hwithin
    exact ⟨⟨replaced, ChunkWriter.writing_nil.symm⟩, hsource _ (.insert hwithin)⟩
  refine ⟨?_, ?_, ?_, ?_, ?_⟩
  · intro cause s hcreate
    obtain ⟨hcause, hcontents⟩ := ChunkWriter.eq_of_create_error hcreate
    refine ⟨hcause, hcontents, ?_⟩
    rw [store_chunked, storeChunks_of_create_error hcreate]
  · intro s hcreate
    obtain ⟨hbuffer, hcontents⟩ := ChunkWriter.eq_of_create_panicked hcreate
    refine ⟨hbuffer, hcontents, ?_⟩
    rw [store_chunked, storeChunks_of_create_error hcreate]
  · intro writer s accepted reached left now piece after now' cause failed t hcreate hrun hread
      hpiece hwrite
    obtain ⟨⟨replaced, rfl⟩, hstart⟩ := hyields hcreate
    obtain ⟨i, u, refusal, hi, hrefused, ht, hcause⟩ :=
      hrun.exists_refused hstart hread hpiece hwrite
    have hstored := store_of_copies_rejected hcreate (hrun.copies (.rejected hread hpiece hwrite))
      (ChunkWriter.failed_of_write hwrite)
    have hcalls := hrun.calls_of_write rfl hread hwrite
    rw [Stores.get_insert_self] at hcalls
    rw [hcreate] at hcreates
    refine ⟨i, u, refusal, hi, hrefused, ht, hcause, hstored, ?_, ?_⟩
    · apply (hcreates.mono _).trans (hcalls.mono _)
      · rintro call (rfl | rfl) bytes heq <;> cases heq
      · rintro call (hchunk | ⟨other, rfl⟩) bytes heq
        · exact hchunk.not_alters_base (.inl ⟨bytes, heq⟩)
        · cases heq
    · rw [hcalls.getElem?_eq, (ChunkWriter.eq_of_create_ok hcreate).2,
        Std.ExtTreeMap.getElem?_erase_self]
      rintro call (hchunk | hload)
      · exact hchunk.not_alters_base
      · exact hload.not_alters _
  · intro writer s accepted reached left now cause after now' hcreate hrun hread hfinal
    obtain ⟨⟨replaced, hwriter⟩, hstart⟩ := hyields hcreate
    obtain ⟨rest, hvalue, hleft⟩ := hrun.yields (congrArg ChunkWriter.base hwriter) hstart
    obtain ⟨rfl, hcause⟩ := hleft.of_read_error hread hfinal
    cases hcause
    have hcopies := hrun.copies (.failed hread (Bool.eq_false_iff.1 hfinal))
    refine ⟨rfl, by rw [hvalue, List.append_nil], ?_⟩
    rw [store_chunked, storeChunks_of_copies hcreate hcopies]
  · intro writer s hcreate
    obtain ⟨⟨replaced, hwriter⟩, hstart⟩ := hyields hcreate
    obtain ⟨accepted, hcopies⟩ := exists_copies handle.id writer source (v.stores.insert handle.id s)
    obtain ⟨reached, left, now, hrun, ⟨after, now', hread⟩ | hends⟩ := hcopies.exists_upTo
    · obtain ⟨rest, -, hleft⟩ := hrun.yields (congrArg ChunkWriter.base hwriter) hstart
      cases (hleft.of_read_nil hread).2
    · exact ⟨accepted, reached, left, now, hrun, hends⟩

/-- A source that fails after some bytes leaves these bytes as the value where nothing is
refused; and of all failures the first one is told. -/
theorem store_of_yields_failure (key : ContentKey) (handle : StoreHandle) (chunkSize : ChunkSize)
    (source : Source) (v : Vault) (value : Bytes) (error : IoError)
    (hsource : ∀ now, v.stores.ChangesAt handle.id key.dataKey now →
      source.Yields (Stores.ChangesAt handle.id key.dataKey) copySize now value (some error)) :
    (chunkSize.IsAllocatable → (v.stores.get handle.id).ServesAll →
      ∃ source' v', (Entry.mk (.chunked handle chunkSize) key).store source v =
          (.error (.reported (.ofStream error)), source', v') ∧
        LeavesValue key handle chunkSize value v v') ∧
      TellsFirstFailure key handle chunkSize source v value error :=
  ⟨fun hbuffer hserves => exists_leavesValue hbuffer hserves hsource, tellsFirstFailure hsource⟩

/-- Five bytes that come in two pieces, with an interruption between them and a failure
behind them. -/
def brokenScript : ScriptedInput where
  events := [.data [1, 2, 3], .failure (.plain .interrupted), .data [4, 5],
    .failure (.plain .connectionReset)]
  limit := none

def plannedVault (plan : FaultPlan) : Vault :=
  { Vault.ofTree .empty with stores := (∅ : Stores).insert 0 { plan } }

def readOnlyPlan : FaultPlan
  | _, .store _ _ => some .engine
  | _, _ => none

def firstWriter (chunkSize : ChunkSize) : ChunkWriter :=
  ⟨"k-data", chunkSize, .empty, 0, 0, 0, .writing⟩

theorem servesAll_plannedVault : ((plannedVault .none).stores.get 0).ServesAll := by
  rw [plannedVault, Stores.get_insert_self]
  exact fun _ _ => rfl

theorem yields_brokenScript {Keeps : Stores → Stores → Prop} (now : Stores) :
    (Source.script brokenScript).Yields Keeps copySize now [1, 2, 3, 4, 5]
      (some (.plain .connectionReset)) :=
  Source.yields_script _ (by decide) (by decide) brokenScript.events now

/-- Stored without a refusal, the five bytes are what is read back.  Without a writer, with
a chunk refused, or with the failure first, it is always the first failure that is told. -/
theorem store_of_yields_failure_brokenScript :
    let handle : StoreHandle := ⟨0, .ofLoader Backend.memoryLoader⟩
    let entry (chunkSize : ChunkSize) : Entry := ⟨.chunked handle chunkSize, ⟨"k"⟩⟩
    (∃ source' v', (entry ⟨4, by decide⟩).store (.script brokenScript) (plannedVault .none) =
        (.error (.reported (.ofStream (.plain .connectionReset))), source', v') ∧
      ∃ opened v'', (entry .standard).openRead v' = (.ok opened, v'') ∧
        opened.Delivers (fun _ => 2) v''.stores [1, 2, 3, 4, 5]) ∧
    (∃ v', (entry ⟨4, by decide⟩).store (.script brokenScript)
        (plannedVault fun _ _ => some .engine) =
      (.error (.reported (.backendUnavailable .engine)), .script brokenScript, v')) ∧
    (∃ v', (entry ⟨4, by decide⟩).store (.script brokenScript) (plannedVault readOnlyPlan) =
      (.error (.reported (.chunkCommitFailed 0 .engine)),
        .script ⟨[.data [], .failure (.plain .connectionReset)], none⟩, v')) ∧
    ∃ v', (entry ⟨16, by decide⟩).store (.script brokenScript) (plannedVault readOnlyPlan) =
      (.error (.reported (.ofStream (.plain .connectionReset))), .script ⟨[], none⟩, v') := by
  intro handle entry
  have hstore (chunkSize : ChunkSize) (v : Vault) :=
    store_of_yields_failure ⟨"k"⟩ handle chunkSize (.script brokenScript) v [1, 2, 3, 4, 5]
      (.plain .connectionReset) fun now _ => yields_brokenScript now
  have hget (plan : FaultPlan) : (plannedVault plan).stores.get handle.id = { plan } :=
    Stores.get_insert_self ∅ 0 { plan }
  let begun : ChunkStore :=
    ChunkStore.afterAll [.load "k-data", .remove "k-data"] { plan := readOnlyPlan }
  have hcreate {chunkSize : ChunkSize} (hbuffer : chunkSize.IsAllocatable) :
      ChunkWriter.create (ContentKey.mk "k").dataKey chunkSize
        ((plannedVault readOnlyPlan).stores.get handle.id) =
          (.ok (firstWriter chunkSize), begun) := by
    rw [hget]
    exact if_pos hbuffer
  refine ⟨?_, ?_, ?_, ?_⟩
  · obtain ⟨source', v', hresult, hleaves⟩ := (hstore ⟨4, by decide⟩ (plannedVault .none)).1
      (by decide) servesAll_plannedVault
    obtain ⟨opened, v'', hopen, hdelivers⟩ := hleaves.delivers (by decide) .standard
    exact ⟨source', v', hresult, opened, v'', hopen, hdelivers _ fun _ => by decide⟩
  · have hfirst := (hstore ⟨4, by decide⟩ (plannedVault fun _ _ => some .engine)).2
    obtain ⟨-, -, hresult⟩ := hfirst.noWriter (.backendUnavailable .engine) _ (by
      rw [hget]
      rfl)
    exact ⟨_, hresult⟩
  · have hbuffered (t : ChunkStore) : (firstWriter ⟨4, by decide⟩).write [1, 2, 3] t =
        (.ok (), (firstWriter ⟨4, by decide⟩).accept [1, 2, 3], t) := rfl
    have hrefused : ((firstWriter ⟨4, by decide⟩).accept [1, 2, 3]).write [4, 5] begun =
        (.error (.chunkCommitFailed 0 .engine), _, _) := rfl
    have hrun : CopiesUpTo handle.id (firstWriter ⟨4, by decide⟩) (.script brokenScript)
        ((plannedVault readOnlyPlan).stores.insert handle.id begun) ([1, 2, 3] ++ []) _ _ _ :=
      .accepted rfl (by decide) (hbuffered _) (.again rfl rfl (.start _ _ _))
    obtain ⟨-, -, -, -, -, -, -, hresult, -, -⟩ :=
      (hstore ⟨4, by decide⟩ (plannedVault readOnlyPlan)).2.chunkRefused _ begun _ _ _ _ [4, 5] _ _
        _ _ _ (hcreate (by decide)) hrun rfl (by decide) (by
          simp only [Stores.get_insert_self]
          exact hrefused)
    exact ⟨_, hresult⟩
  · have hfirst (t : ChunkStore) : (firstWriter ⟨16, by decide⟩).write [1, 2, 3] t =
        (.ok (), (firstWriter ⟨16, by decide⟩).accept [1, 2, 3], t) := rfl
    have hsecond (t : ChunkStore) :
        ((firstWriter ⟨16, by decide⟩).accept [1, 2, 3]).write [4, 5] t =
          (.ok (), ((firstWriter ⟨16, by decide⟩).accept [1, 2, 3]).accept [4, 5], t) := rfl
    have hrun : CopiesUpTo handle.id (firstWriter ⟨16, by decide⟩) (.script brokenScript)
        ((plannedVault readOnlyPlan).stores.insert handle.id begun) ([1, 2, 3] ++ ([4, 5] ++ [])) _
        _ _ :=
      .accepted rfl (by decide) (hfirst _)
        (.again rfl rfl (.accepted rfl (by decide) (hsecond _) (.start _ _ _)))
    obtain ⟨-, -, hresult⟩ := (hstore ⟨16, by decide⟩ (plannedVault readOnlyPlan)).2.inputFailed
      _ begun _ _ _ _ _ _ _ (hcreate (by decide)) hrun rfl rfl
    exact ⟨_, hresult⟩

/-- It is not so that the failure of the input is told for chunks of any size: although nothing
is refused, for the largest ones the input is not even read. -/
theorem store_panics_plannedVault :
    ((plannedVault .none).stores.get 0).ServesAll ∧
      (∀ now, (Source.script brokenScript).Yields
        (Stores.ChangesAt 0 (ContentKey.mk "k").dataKey) copySize now [1, 2, 3, 4, 5]
        (some (.plain .connectionReset))) ∧
      ∃ v', (Entry.mk (.chunked ⟨0, .ofLoader Backend.memoryLoader⟩
          ChunkWriter.hugeChunkSize) ⟨"k"⟩).store (.script brokenScript) (plannedVault .none) =
        (.error .panicked, .script brokenScript, v') := by
  obtain ⟨v', hstore, -⟩ := exists_panic_of_not_allocatable ⟨"k"⟩
    ⟨0, .ofLoader Backend.memoryLoader⟩ (.script brokenScript) (plannedVault .none)
    ChunkWriter.not_allocatable_hugeChunkSize servesAll_plannedVault
  exact ⟨servesAll_plannedVault, fun now => yields_brokenScript now, v', hstore⟩

end Storing

end Entry

end ContentVault
