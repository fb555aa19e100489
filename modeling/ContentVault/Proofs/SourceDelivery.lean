import ContentVault.Proofs.Copying
import ContentVault.Proofs.ValueReading

/-!
# What a source delivers

A source may hand its bytes out in pieces of any sizes and be interrupted any number of
times.  While it is copied to a writer, the store of the writer changes beneath it, and
it counts as handing out some bytes only if it does so whatever these changes are.
-/

namespace ContentVault

open ChunkStore (Calls)

/-- The stores have changed at most by calls for the value under one base key of one
store. -/
structure Stores.ChangesAt (id : StoreId) (base : String) (stores now : Stores) : Prop where
  calls : Calls (Call.Within base) (stores.get id) (now.get id)
  others : ∀ other, other ≠ id → now.get other = stores.get other

theorem Stores.ChangesAt.refl (id : StoreId) (base : String) (stores : Stores) :
    stores.ChangesAt id base stores where
  calls := Calls.refl _
  others := fun _ _ => rfl

theorem Stores.ChangesAt.insert {id : StoreId} {base : String} {stores : Stores} {s : ChunkStore}
    (hcalls : Calls (Call.Within base) (stores.get id) s) :
    stores.ChangesAt id base (stores.insert id s) where
  calls := by
    rw [Stores.get_insert_self]
    exact hcalls
  others := fun _ hne => Stores.get_insert_of_ne _ _ hne

namespace Source

/-- Before its first read without bytes, the source hands out these bytes, at most `size`
for each read. -/
inductive HandsOut (id : StoreId) (base : String) (size : Nat) :
    Source → Stores → Bytes → Prop where
  | ended {source after : Source} {stores stores' : Stores}
      (hread : source.read size stores = (.ok [], after, stores')) :
      HandsOut id base size source stores []
  | piece {source after : Source} {stores stores' : Stores} {piece bytes : Bytes}
      (hread : source.read size stores = (.ok piece, after, stores')) (hpiece : piece ≠ [])
      (hrest : ∀ now, stores'.ChangesAt id base now → HandsOut id base size after now bytes) :
      HandsOut id base size source stores (piece ++ bytes)
  | again {source after : Source} {stores stores' : Stores} {bytes : Bytes} {error : IoError}
      (hread : source.read size stores = (.error error, after, stores'))
      (hinterrupted : error.isInterrupted = true)
      (hrest : HandsOut id base size after stores' bytes) :
      HandsOut id base size source stores bytes

/-- The outcome of one of the reads that follow one another; `sizes` tells how many bytes
each asks for. -/
def readAt (sizes : Nat → Nat) (source : Source) (stores : Stores) : Nat → Except IoError Bytes
  | 0 => (source.read (sizes 0) stores).1
  | turn + 1 =>
    readAt (fun turn => sizes (turn + 1)) (source.read (sizes 0) stores).2.1
      (source.read (sizes 0) stores).2.2 turn

/-- The reads hand out the bytes piece by piece, and nothing ever after. -/
def Delivers (sizes : Nat → Nat) (source : Source) (stores : Stores) (bytes : Bytes) : Prop :=
  ∃ pieces : List Bytes, [] ∉ pieces ∧ pieces.flatten = bytes ∧
    ∀ turn, source.readAt sizes stores turn = .ok (pieces.getD turn [])

/-- The bytes that reads of an opened value are going to hand out, and the failure behind
them, if there is one. -/
inductive Promises : Source → Stores → Bytes → Option IoError → Prop where
  | file (rest : Bytes) (stores : Stores) : Promises (.file rest) stores rest none
  | directory (stores : Stores) :
      Promises .directory stores [] (some (.file .isADirectory))
  | chunks (id : StoreId) (r : ChunkReader) (stores : Stores) :
      Promises (.chunks id r) stores (r.ahead (stores.get id)).1
        ((r.ahead (stores.get id)).2.map VaultError.toStream)

section Promises

variable {source after : Source} {stores stores' : Stores} {size : Nat} {piece bytes : Bytes}
  {error : IoError} {failure : Option IoError}

/-- A read that succeeds takes some of the bytes and leaves the promise of the rest; it
comes back empty only at the end. -/
theorem Promises.of_read_ok (hpromises : source.Promises stores bytes failure) (hsize : 0 < size)
    (hread : source.read size stores = (.ok piece, after, stores')) :
    ∃ rest, bytes = piece ++ rest ∧ (piece = [] → bytes = [] ∧ failure = none) ∧
      after.Promises stores' rest failure := by
  cases hpromises with
  | file rest =>
    cases hread
    refine ⟨bytes.drop size, (List.take_append_drop size bytes).symm, ?_, .file _ _⟩
    intro hnil
    rcases List.take_eq_nil_iff.1 hnil with hzero | hbytes
    · exact absurd hzero (Nat.ne_of_gt hsize)
    · exact ⟨hbytes, rfl⟩
  | directory => cases hread
  | chunks id r =>
    simp only [Source.read, Stores.update_eq, Prod.mk.injEq] at hread
    obtain ⟨hresult, rfl, rfl⟩ := hread
    obtain ⟨hsplit, hend⟩ := ChunkReader.ahead_of_read_ok hsize (Prod.ext hresult rfl)
    have hrest := Promises.chunks id (r.read size (stores.get id)).2.1
      (stores.insert id (r.read size (stores.get id)).2.2)
    rw [Stores.get_insert_self] at hrest
    refine ⟨_, congrArg Prod.fst hsplit, fun hnil => ?_, ?_⟩
    · rw [hend hnil]
      exact ⟨rfl, rfl⟩
    · rw [hsplit]
      exact hrest

/-- A read fails only where no byte is left before the failure. -/
theorem Promises.of_read_error (hpromises : source.Promises stores bytes failure)
    (hread : source.read size stores = (.error error, after, stores')) :
    bytes = [] ∧ failure = some error ∧ error.isInterrupted = false := by
  cases hpromises with
  | file rest => cases hread
  | directory =>
    cases hread
    exact ⟨rfl, rfl, rfl⟩
  | chunks id r =>
    simp only [Source.read, Stores.update_eq, Prod.mk.injEq] at hread
    have hfailed : r.read size (stores.get id) = (.error error, _, _) := Prod.ext hread.1 rfl
    obtain ⟨cause, hahead, rfl⟩ := ChunkReader.ahead_of_read_error hfailed
    rw [hahead]
    exact ⟨rfl, rfl, ChunkReader.isInterrupted_of_read hfailed⟩

/-- Where no failure is promised every read succeeds. -/
theorem Promises.exists_read (hpromises : source.Promises stores bytes none) (hsize : 0 < size) :
    ∃ piece rest after stores', source.read size stores = (.ok piece, after, stores') ∧
      bytes = piece ++ rest ∧ (piece = [] → bytes = []) ∧ after.Promises stores' rest none := by
  cases hread : source.read size stores with
  | mk result next =>
    obtain ⟨after, stores'⟩ := next
    cases result with
    | error error => cases (hpromises.of_read_error hread).2.1
    | ok piece =>
      obtain ⟨rest, hsplit, hend, hrest⟩ := hpromises.of_read_ok hsize hread
      exact ⟨piece, rest, after, stores', rfl, hsplit, fun hnil => (hend hnil).1, hrest⟩

/-- At the end every further read comes back without bytes. -/
theorem Promises.readAt_of_nil {sizes : Nat → Nat} (hsizes : ∀ turn, 0 < sizes turn)
    (hpromises : source.Promises stores [] none) (turn : Nat) :
    source.readAt sizes stores turn = .ok [] := by
  induction turn generalizing sizes source stores with
  | zero =>
    obtain ⟨piece, rest, after, stores', hread, hsplit, -, -⟩ := hpromises.exists_read (hsizes 0)
    rw [Source.readAt, hread, (List.append_eq_nil_iff.1 hsplit.symm).1]
  | succ turn ih =>
    obtain ⟨piece, rest, after, stores', hread, hsplit, -, hrest⟩ :=
      hpromises.exists_read (hsizes 0)
    rw [(List.append_eq_nil_iff.1 hsplit.symm).2] at hrest
    rw [Source.readAt, hread]
    exact ih (fun turn => hsizes (turn + 1)) hrest

/-- Whatever the sizes of the reads, they deliver what is promised without a failure. -/
theorem Promises.delivers {sizes : Nat → Nat} (hsizes : ∀ turn, 0 < sizes turn)
    (hpromises : source.Promises stores bytes none) : source.Delivers sizes stores bytes := by
  -- On the bytes left: a read either takes some of them or finds none left.
  induction hlength : bytes.length using Nat.strongRecOn
    generalizing sizes source stores bytes with
  | ind length ih =>
    obtain ⟨piece, rest, after, stores', hread, hsplit, hend, hrest⟩ :=
      hpromises.exists_read (hsizes 0)
    by_cases hpiece : piece = []
    · have hnothing := hend hpiece
      rw [hnothing] at hpromises
      refine ⟨[], List.not_mem_nil, hnothing.symm, fun turn => ?_⟩
      rw [hpromises.readAt_of_nil hsizes turn]
      rfl
    · have hshorter : rest.length < length := by
        have hpos := List.length_pos_iff.2 hpiece
        rw [← hlength, hsplit, List.length_append]
        omega
      obtain ⟨pieces, hpieces, hflatten, hreads⟩ :=
        ih _ hshorter (fun turn => hsizes (turn + 1)) hrest rfl
      refine ⟨piece :: pieces, ?_, ?_, fun turn => ?_⟩
      · rw [List.mem_cons, not_or]
        exact ⟨fun heq => hpiece heq.symm, hpieces⟩
      · rw [List.flatten_cons, hflatten, hsplit]
      · cases turn with
        | zero => rw [Source.readAt, hread, List.getD_cons_zero]
        | succ turn =>
          rw [Source.readAt, hread, List.getD_cons_succ]
          exact hreads turn

theorem Promises.drainFrom (hpromises : source.Promises stores bytes failure) (hsize : 0 < size)
    (pieces : List Bytes) :
    (source.drainFrom pieces size stores).bytes = pieces.reverse.flatten ++ bytes ∧
      (source.drainFrom pieces size stores).failure = failure := by
  fun_induction Source.drainFrom pieces source size stores generalizing bytes with
  | case1 pieces source stores after stores' hread =>
    obtain ⟨rest, -, hend, -⟩ := hpromises.of_read_ok hsize hread
    obtain ⟨hbytes, hfailure⟩ := hend rfl
    rw [hbytes, hfailure, List.append_nil]
    exact ⟨rfl, rfl⟩
  | case2 pieces source stores byte piece after stores' hread ih =>
    obtain ⟨rest, hsplit, -, hrest⟩ := hpromises.of_read_ok hsize hread
    obtain ⟨hbytes, hfailure⟩ := ih hrest
    refine ⟨?_, hfailure⟩
    rw [hbytes, hsplit, List.reverse_cons, List.flatten_append, List.flatten_singleton,
      List.append_assoc]
  | case3 pieces source stores error after stores' hread hinterrupted ih =>
    rw [(hpromises.of_read_error hread).2.2] at hinterrupted
    cases hinterrupted
  | case4 pieces source stores error after stores' hread hinterrupted =>
    obtain ⟨hbytes, hfailure, -⟩ := hpromises.of_read_error hread
    rw [hbytes, hfailure, List.append_nil]
    exact ⟨rfl, rfl⟩

/-- Reading to the end brings what is promised, however much is read at a time. -/
theorem Promises.drain (hpromises : source.Promises stores bytes failure) (hsize : 0 < size) :
    (source.drain size stores).bytes = bytes ∧ (source.drain size stores).failure = failure :=
  hpromises.drainFrom hsize []

end Promises

/-- What reading a source comes to: before its first read without bytes, or before the
failure that ends the reading, it hands out these bytes, at most `size` for each read.
After every read with bytes the stores may change. -/
inductive Yields (Changes : Stores → Stores → Prop) (size : Nat) :
    Source → Stores → Bytes → Option IoError → Prop where
  | ended {source after : Source} {stores stores' : Stores}
      (hread : source.read size stores = (.ok [], after, stores')) :
      Yields Changes size source stores [] none
  | failed {source after : Source} {stores stores' : Stores} {error : IoError}
      (hread : source.read size stores = (.error error, after, stores'))
      (hfinal : error.isInterrupted = false) :
      Yields Changes size source stores [] (some error)
  | piece {source after : Source} {stores stores' : Stores} {piece bytes : Bytes}
      {failure : Option IoError}
      (hread : source.read size stores = (.ok piece, after, stores')) (hpiece : piece ≠ [])
      (hrest : ∀ now, Changes stores' now → Yields Changes size after now bytes failure) :
      Yields Changes size source stores (piece ++ bytes) failure
  | again {source after : Source} {stores stores' : Stores} {bytes : Bytes} {error : IoError}
      {failure : Option IoError}
      (hread : source.read size stores = (.error error, after, stores'))
      (hinterrupted : error.isInterrupted = true)
      (hrest : Yields Changes size after stores' bytes failure) :
      Yields Changes size source stores bytes failure

section Yields

variable {Changes : Stores → Stores → Prop} {size : Nat} {source other : Source}
  {stores : Stores} {bytes : Bytes} {failure : Option IoError}

theorem Yields.congr (hsame : other.read size stores = source.read size stores)
    (hyields : Yields Changes size source stores bytes failure) :
    Yields Changes size other stores bytes failure := by
  cases hyields with
  | ended hread => exact .ended (hsame.trans hread)
  | failed hread hfinal => exact .failed (hsame.trans hread) hfinal
  | piece hread hpiece hrest => exact .piece (hsame.trans hread) hpiece hrest
  | again hread hinterrupted hrest => exact .again (hsame.trans hread) hinterrupted hrest

/-- What a source yields whatever changes, it yields as well where less can change. -/
theorem Yields.mono {Fewer : Stores → Stores → Prop}
    (hchanges : ∀ stores now, Fewer stores now → Changes stores now)
    (hyields : Yields Changes size source stores bytes failure) :
    Yields Fewer size source stores bytes failure := by
  induction hyields with
  | ended hread => exact .ended hread
  | failed hread hfinal => exact .failed hread hfinal
  | piece hread hpiece _ ih =>
    exact .piece hread hpiece fun now hnow => ih now (hchanges _ now hnow)
  | again hread hinterrupted _ ih => exact .again hread hinterrupted ih

section Inversion

variable {after : Source} {stores' : Stores} {piece : Bytes} {error : IoError}

theorem Yields.of_read_nil (hyields : Yields Changes size source stores bytes failure)
    (hread : source.read size stores = (.ok [], after, stores')) : bytes = [] ∧ failure = none := by
  cases hyields with
  | ended => exact ⟨rfl, rfl⟩
  | failed hread' => cases hread.symm.trans hread'
  | piece hread' hpiece =>
    cases hread.symm.trans hread'
    exact absurd rfl hpiece
  | again hread' => cases hread.symm.trans hread'

theorem Yields.of_read_piece (hyields : Yields Changes size source stores bytes failure)
    (hread : source.read size stores = (.ok piece, after, stores')) (hpiece : piece ≠ []) :
    ∃ rest, bytes = piece ++ rest ∧
      ∀ now, Changes stores' now → Yields Changes size after now rest failure := by
  cases hyields with
  | ended hread' =>
    cases hread.symm.trans hread'
    exact absurd rfl hpiece
  | failed hread' => cases hread.symm.trans hread'
  | piece hread' _ hrest =>
    cases hread.symm.trans hread'
    exact ⟨_, rfl, hrest⟩
  | again hread' => cases hread.symm.trans hread'

theorem Yields.of_read_interrupted (hyields : Yields Changes size source stores bytes failure)
    (hread : source.read size stores = (.error error, after, stores'))
    (hinterrupted : error.isInterrupted = true) :
    Yields Changes size after stores' bytes failure := by
  cases hyields with
  | ended hread' => cases hread.symm.trans hread'
  | failed hread' hfinal =>
    cases hread.symm.trans hread'
    rw [hinterrupted] at hfinal
    cases hfinal
  | piece hread' => cases hread.symm.trans hread'
  | again hread' _ hrest =>
    cases hread.symm.trans hread'
    exact hrest

theorem Yields.of_read_error (hyields : Yields Changes size source stores bytes failure)
    (hread : source.read size stores = (.error error, after, stores'))
    (hfinal : error.isInterrupted = false) : bytes = [] ∧ failure = some error := by
  cases hyields with
  | ended hread' => cases hread.symm.trans hread'
  | failed hread' =>
    cases hread.symm.trans hread'
    exact ⟨rfl, rfl⟩
  | piece hread' => cases hread.symm.trans hread'
  | again hread' hinterrupted =>
    cases hread.symm.trans hread'
    rw [hfinal] at hinterrupted
    cases hinterrupted

end Inversion

/-- A source that does not fail hands out its bytes. -/
theorem Yields.handsOut {id : StoreId} {base : String}
    (hyields : Yields (Stores.ChangesAt id base) size source stores bytes failure)
    (hnone : failure = none) : HandsOut id base size source stores bytes := by
  induction hyields with
  | ended hread => exact .ended hread
  | failed => cases hnone
  | piece hread hpiece hrest ih => exact .piece hread hpiece fun now hnow => ih now hnow hnone
  | again hread hinterrupted hrest ih => exact .again hread hinterrupted (ih hnone)

/-- A source that nothing changes beneath is drained of what it yields. -/
theorem Yields.drainFrom (hyields : Yields (· = ·) size source stores bytes failure)
    (pieces : List Bytes) :
    (source.drainFrom pieces size stores).bytes = pieces.reverse.flatten ++ bytes ∧
      (source.drainFrom pieces size stores).failure = failure := by
  fun_induction Source.drainFrom pieces source size stores generalizing bytes with
  | case1 pieces source stores after stores' hread =>
    obtain ⟨hbytes, hfailure⟩ := hyields.of_read_nil hread
    rw [hbytes, hfailure, List.append_nil]
    exact ⟨rfl, rfl⟩
  | case2 pieces source stores byte piece after stores' hread ih =>
    obtain ⟨rest, hsplit, hrest⟩ := hyields.of_read_piece hread (List.cons_ne_nil byte piece)
    obtain ⟨hbytes, hfailure⟩ := ih (hrest stores' rfl)
    refine ⟨?_, hfailure⟩
    rw [hbytes, hsplit, List.reverse_cons, List.flatten_append, List.flatten_singleton,
      List.append_assoc]
  | case3 pieces source stores error after stores' hread hinterrupted ih =>
    exact ih (hyields.of_read_interrupted hread hinterrupted)
  | case4 pieces source stores error after stores' hread hinterrupted =>
    obtain ⟨hbytes, hfailure⟩ := hyields.of_read_error hread (Bool.eq_false_iff.2 hinterrupted)
    rw [hbytes, hfailure, List.append_nil]
    exact ⟨rfl, rfl⟩

theorem Yields.drain (hyields : Yields (· = ·) size source stores bytes failure) :
    (source.drain size stores).bytes = bytes ∧ (source.drain size stores).failure = failure :=
  hyields.drainFrom []

/-- Reading any source comes to something. -/
theorem exists_yields (source : Source) (size : Nat) (stores : Stores) :
    ∃ bytes failure, Yields (· = ·) size source stores bytes failure := by
  -- Along the recursion of draining, whatever was read before.
  obtain ⟨pieces⟩ : Nonempty (List Bytes) := ⟨[]⟩
  fun_induction Source.drainFrom pieces source size stores with
  | case1 pieces source stores after stores' hread => exact ⟨_, _, .ended hread⟩
  | case2 pieces source stores byte piece after stores' hread ih =>
    obtain ⟨bytes, failure, hrest⟩ := ih
    exact ⟨_, failure, .piece hread (List.cons_ne_nil byte piece) fun _ hnow => hnow ▸ hrest⟩
  | case3 pieces source stores error after stores' hread hinterrupted ih =>
    obtain ⟨bytes, failure, hrest⟩ := ih
    exact ⟨bytes, failure, .again hread hinterrupted hrest⟩
  | case4 pieces source stores error after stores' hread hinterrupted =>
    exact ⟨_, _, .failed hread (Bool.eq_false_iff.2 hinterrupted)⟩

end Yields

/-- A file yields what has not been read of it. -/
theorem yields_file (Changes : Stores → Stores → Prop) {size : Nat} (hsize : 0 < size)
    (rest : Bytes) (stores : Stores) : Yields Changes size (.file rest) stores rest none := by
  induction hlength : rest.length using Nat.strongRecOn generalizing rest stores with
  | ind length ih =>
    by_cases hrest : rest = []
    · have hread : (Source.file []).read size stores = (.ok [], .file [], stores) := by
        rw [read, List.take_nil, List.drop_nil]
      rw [hrest]
      exact .ended hread
    · have hpiece : rest.take size ≠ [] := by
        rw [Ne, List.take_eq_nil_iff, not_or]
        exact ⟨Nat.ne_of_gt hsize, hrest⟩
      have hshorter : (rest.drop size).length < length := by
        have hpos := List.length_pos_iff.2 hrest
        rw [List.length_drop]
        omega
      have hyields : Yields Changes size (.file rest) stores (rest.take size ++ rest.drop size) none :=
        .piece rfl hpiece fun now _ => ih _ hshorter (rest.drop size) now rfl
      rw [List.take_append_drop] at hyields
      exact hyields

/-- Reading to the end only ever loads. -/
theorem calls_drain (source : Source) (size : Nat) (stores : Stores) (id : StoreId) :
    Calls Call.IsLoad (stores.get id) ((source.drain size stores).stores.get id) := by
  rw [Source.drain]
  -- Along the recursion, whatever was read before.
  generalize ([] : List Bytes) = pieces
  fun_induction Source.drainFrom pieces source size stores with
  | case1 pieces source stores after stores' hread => exact calls_of_read hread id
  | case2 pieces source stores byte piece after stores' hread ih =>
    exact (calls_of_read hread id).trans ih
  | case3 pieces source stores error after stores' hread hinterrupted ih =>
    exact (calls_of_read hread id).trans ih
  | case4 pieces source stores error after stores' hread hinterrupted =>
    exact calls_of_read hread id

section Script

/-- The bytes of a script before its first pause, its first failure that is not an
interruption, or its end; and the failure, if there is one. -/
def outcomeOf : List InputEvent → Bytes × Option IoError
  | [] => ([], none)
  | .pause :: _ => ([], none)
  | .failure error :: rest => if error.isInterrupted then outcomeOf rest else ([], some error)
  | .data bytes :: rest => (bytes ++ (outcomeOf rest).1, (outcomeOf rest).2)

/-- The bytes of a script before its first pause or its end, unless it fails first. -/
def handedOut? : List InputEvent → Option Bytes
  | [] => some []
  | .pause :: _ => some []
  | .failure error :: rest => if error.isInterrupted then handedOut? rest else none
  | .data bytes :: rest => (handedOut? rest).map (bytes ++ ·)

variable {id : StoreId} {base : String} {size : Nat} {value : Bytes}

theorem outcomeOf_of_handedOut? {events : List InputEvent} (hevents : handedOut? events = some value) :
    outcomeOf events = (value, none) := by
  induction events generalizing value with
  | nil =>
    cases hevents
    rfl
  | cons event rest ih =>
    cases event with
    | pause =>
      cases hevents
      rfl
    | failure error =>
      rw [handedOut?] at hevents
      rw [outcomeOf]
      split at hevents
      · rename_i hinterrupted
        rw [if_pos hinterrupted]
        exact ih hevents
      · cases hevents
    | data bytes =>
      obtain ⟨after, hafter, rfl⟩ := Option.map_eq_some_iff.1 hevents
      rw [outcomeOf, ih hafter]

/-- A script yields its bytes however they are cut, if no limit keeps it from ever handing
out one. -/
theorem yields_script (Changes : Stores → Stores → Prop) {limit : Option Nat}
    (hlimit : limit ≠ some 0) (hsize : 0 < size) (events : List InputEvent) (stores : Stores) :
    Yields Changes size (.script ⟨events, limit⟩) stores (outcomeOf events).1
      (outcomeOf events).2 := by
  obtain ⟨most, hmost, hread⟩ : ∃ most, 0 < most ∧ ∀ (events : List InputEvent) (stores : Stores),
      (Source.script ⟨events, limit⟩).read size stores =
        ((ScriptedInput.readEvents most events).1,
          .script ⟨(ScriptedInput.readEvents most events).2, limit⟩, stores) := by
    cases limit with
    | none => exact ⟨size, hsize, fun _ _ => rfl⟩
    | some limit =>
      have hpos : 0 < limit := Nat.pos_of_ne_zero fun hzero => hlimit (by rw [hzero])
      exact ⟨min size limit, by omega, fun _ _ => rfl⟩
  induction events generalizing stores with
  | nil => exact .ended (hread [] stores)
  | cons event rest ih =>
    cases event with
    | pause => exact .ended (hread (.pause :: rest) stores)
    | failure error =>
      rw [outcomeOf]
      split
      · rename_i hinterrupted
        exact .again (hread (.failure error :: rest) stores) hinterrupted (ih stores)
      · rename_i hfinal
        exact .failed (hread (.failure error :: rest) stores) (Bool.not_eq_true _ ▸ hfinal)
    | data bytes =>
      rw [outcomeOf]
      -- On the bytes left of the event: a read takes some of them, or goes on to the rest.
      induction hlength : bytes.length using Nat.strongRecOn
        generalizing bytes stores with
      | ind length ihbytes =>
        by_cases hbytes : bytes = []
        · rw [hbytes]
          apply (ih stores).congr
          rw [hread, hread, ScriptedInput.readEvents, if_pos rfl]
        · have hpos := List.length_pos_iff.2 hbytes
          have hfirst := hread (.data bytes :: rest) stores
          rw [ScriptedInput.readEvents, if_neg hbytes] at hfirst
          have htaken : bytes.take most ≠ [] := by
            rw [Ne, List.take_eq_nil_iff, not_or]
            exact ⟨Nat.ne_of_gt hmost, hbytes⟩
          have hshorter : (bytes.drop most).length < length := by
            rw [List.length_drop]
            omega
          have hsplit : bytes ++ (outcomeOf rest).1 =
              bytes.take most ++ (bytes.drop most ++ (outcomeOf rest).1) := by
            rw [← List.append_assoc, List.take_append_drop]
          rw [hsplit]
          exact .piece hfirst htaken fun now _ => ihbytes _ hshorter now (bytes.drop most) rfl

theorem yields_ofBytes (Changes : Stores → Stores → Prop) (hsize : 0 < size) (bytes : Bytes)
    (stores : Stores) : Yields Changes size (.ofBytes bytes) stores bytes none := by
  have hyields := yields_script Changes (Option.some_ne_none 0).symm hsize [.data bytes] stores
  rwa [outcomeOf, outcomeOf, List.append_nil] at hyields

/-- A script hands out its bytes however they are cut, if no limit keeps it from ever
handing out one. -/
theorem handsOut_script {events : List InputEvent} {limit : Option Nat} (hlimit : limit ≠ some 0)
    (hsize : 0 < size) (hevents : handedOut? events = some value) (stores : Stores) :
    HandsOut id base size (.script ⟨events, limit⟩) stores value := by
  have hyields := yields_script (Stores.ChangesAt id base) hlimit hsize events stores
  rw [outcomeOf_of_handedOut? hevents] at hyields
  exact hyields.handsOut rfl

end Script

end Source

/-- A value that a store holds can be opened as an entry with chunks of any size, and is
promised to its readers. -/
theorem Entry.exists_openRead_of_holdsValue (key : ContentKey) (handle : StoreHandle)
    (chunkSize : ChunkSize) (v : Vault) {held : ChunkSize} {value : Bytes}
    (hloads : (v.stores.get handle.id).ServesLoads)
    (hvalue : (v.stores.get handle.id).contents.HoldsValue key.dataKey held value)
    (hfits : value.length < UInt64.size) :
    ∃ opened v', (Entry.mk (.chunked handle chunkSize) key).openRead v = (.ok opened, v') ∧
      opened.Promises v'.stores value none := by
  obtain ⟨r, hcreate, hahead⟩ := exists_reader_of_holdsValue hloads hvalue hfits
  have hopen : (Entry.mk (.chunked handle chunkSize) key).openRead v =
      (.ok (.chunks handle.id r), { v with
        stores := v.stores.insert handle.id
          ((v.stores.get handle.id).after (.load key.dataKey)) }) := by
    simp only [openRead, Stores.update_eq, hcreate]
  have hpromises := Source.Promises.chunks handle.id r
    (v.stores.insert handle.id ((v.stores.get handle.id).after (.load key.dataKey)))
  rw [Stores.get_insert_self, hahead] at hpromises
  exact ⟨_, _, hopen, hpromises⟩

end ContentVault
