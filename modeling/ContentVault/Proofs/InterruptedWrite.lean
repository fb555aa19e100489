import ContentVault.Proofs.CompletedWrite

/-!
# What an interrupted write leaves behind

Writing a value stores its chunks in ascending order and its manifest last.  Wherever one of
these calls is refused, the chunks before it are in the store, nothing is under the base key,
and every other key is as it was.
-/

namespace ContentVault

namespace ChunkStore

theorem allServed_afterAll_iff (calls : List Call) (s : ChunkStore) :
    s.AllServed (s.afterAll calls) ↔ ∀ event ∈ s.events calls, event.served = true := by
  constructor
  · rintro ⟨events, hhistory, hserved⟩ event hmem
    rw [history_afterAll] at hhistory
    apply hserved
    rw [← List.append_cancel_right hhistory]
    exact List.mem_reverse.2 hmem
  · intro hserved
    exact ⟨_, history_afterAll calls s, fun event hmem => hserved event (List.mem_reverse.1 hmem)⟩

theorem allServed_afterAll_append_iff (calls more : List Call) (s : ChunkStore) :
    s.AllServed (s.afterAll (calls ++ more)) ↔ s.AllServed (s.afterAll calls) ∧
      (s.afterAll calls).AllServed ((s.afterAll calls).afterAll more) := by
  simp only [allServed_afterAll_iff, events_append, List.forall_mem_append]

theorem allServed_after_iff (call : Call) (s : ChunkStore) :
    s.AllServed (s.after call) ↔ s.refusal? call = none := by
  have hsingle := allServed_afterAll_iff [call] s
  rw [events, events, List.forall_mem_singleton] at hsingle
  exact hsingle.trans Option.isNone_iff_eq_none

end ChunkStore

/-- What every chunk that is stored carries on to the next, all chunks together carry on. -/
theorem afterAll_chunkCalls_induction {base : String} {size first count : Nat} {value : Bytes}
    {s : ChunkStore} (Reached : Nat → ChunkStore → Prop)
    (hstep : ∀ i t, i < first + count → t.refusal? (chunkCall base size value i) = none →
      Reached i t → Reached (i + 1) (t.after (chunkCall base size value i)))
    (hserved : s.AllServed (s.afterAll (chunkCalls base size value (List.range' first count))))
    (hstart : Reached first s) :
    Reached (first + count)
      (s.afterAll (chunkCalls base size value (List.range' first count))) := by
  induction count with
  | zero => exact hstart
  | succ count ih =>
    have hcalls : chunkCalls base size value (List.range' first (count + 1)) =
        chunkCalls base size value (List.range' first count) ++
          [chunkCall base size value (first + count)] := by
      rw [List.range'_1_concat, chunkCalls, List.map_append]
      rfl
    rw [hcalls, ChunkStore.allServed_afterAll_append_iff] at hserved
    obtain ⟨hbefore, hlast⟩ := hserved
    rw [hcalls, ChunkStore.afterAll_append]
    apply hstep _ _ (Nat.lt_succ_self _) ((ChunkStore.allServed_after_iff _ _).1 hlast)
    exact ih (fun i t hi => hstep i t (Nat.lt_succ_of_lt hi)) hbefore

/-- How contents change as long as only the first chunks of a value are stored. -/
structure Unfinished (base : String) (size : Nat) (value : Bytes) (count : Nat)
    (before after : Contents) : Prop where
  manifest : after[base]? = none
  chunks : ∀ i < count, after[chunkKey base (.ofNat i)]? = some (piece size value i)
  others : ∀ key, key ≠ base → (∀ i < count, key ≠ chunkKey base (.ofNat i)) →
    after[key]? = before[key]?

namespace Unfinished

variable {base : String} {size count : Nat} {value : Bytes} {before after : Contents}
  {s : ChunkStore}

/-- With its manifest gone, a value is begun. -/
theorem begun (base : String) (size : Nat) (value : Bytes) (before : Contents) :
    Unfinished base size value 0 before (before.erase base) where
  manifest := Std.ExtTreeMap.getElem?_erase_self
  chunks := fun i hi => absurd hi (Nat.not_lt_zero i)
  others := by
    intro key hbase _
    simp [Std.ExtTreeMap.getElem?_erase, hbase.symm]

/-- More bytes do not change the chunks that were full before. -/
theorem append (data : Bytes) (hfull : count * size ≤ value.length)
    (hunfinished : Unfinished base size value count before after) :
    Unfinished base size (value ++ data) count before after where
  manifest := hunfinished.manifest
  chunks := by
    intro i hi
    rw [piece_append data (Nat.le_trans (Nat.mul_le_mul_right size hi) hfull)]
    exact hunfinished.chunks i hi
  others := hunfinished.others

/-- The next chunk is stored beside those before it. -/
theorem insert (hcount : count < UInt64.size)
    (hunfinished : Unfinished base size value count before after) :
    Unfinished base size value (count + 1) before
      (after.insert (chunkKey base (.ofNat count)) (piece size value count)) where
  manifest := by
    rw [Std.ExtTreeMap.getElem?_insert, if_neg fun heq =>
      chunkKey_ne_self base (.ofNat count) (Std.LawfulEqOrd.compare_eq_iff_eq.1 heq)]
    exact hunfinished.manifest
  chunks := by
    intro i hi
    rcases Nat.lt_succ_iff_lt_or_eq.1 hi with hlt | rfl
    · have hne : ¬compare (chunkKey base (.ofNat count)) (chunkKey base (.ofNat i)) = .eq := by
        rw [Std.LawfulEqOrd.compare_eq_iff_eq, chunkKey_ofNat_inj hcount (by omega)]
        exact Nat.ne_of_gt hlt
      rw [Std.ExtTreeMap.getElem?_insert, if_neg hne]
      exact hunfinished.chunks i hlt
    · exact Std.ExtTreeMap.getElem?_insert_self
  others := by
    intro key hbase hchunks
    have hne : ¬compare (chunkKey base (.ofNat count)) key = .eq := by
      rw [Std.LawfulEqOrd.compare_eq_iff_eq]
      exact (hchunks count (Nat.lt_succ_self count)).symm
    rw [Std.ExtTreeMap.getElem?_insert, if_neg hne]
    exact hunfinished.others key hbase fun i hi => hchunks i (Nat.lt_succ_of_lt hi)

/-- Chunks that are stored one after the other lie behind those that were there. -/
theorem afterAll {first : Nat} (hunfinished : Unfinished base size value first before s.contents)
    (hserved : s.AllServed (s.afterAll (chunkCalls base size value (List.range' first count))))
    (hfits : first + count ≤ UInt64.size) :
    Unfinished base size value (first + count) before
      (s.afterAll (chunkCalls base size value (List.range' first count))).contents := by
  apply afterAll_chunkCalls_induction (fun i t => Unfinished base size value i before t.contents)
    _ hserved hunfinished
  intro i t hi hcall hreached
  rw [ChunkStore.contents_after_of_served _ _ hcall]
  exact hreached.insert (Nat.lt_of_lt_of_le hi hfits)

end Unfinished

/-- Writing a value was cut short: its chunks before the one at `i` were stored, and then
the next call, for that chunk or for the manifest behind the last one, was refused. -/
def CutShort (base : String) (chunkSize : ChunkSize) (value : Bytes) (i : Nat)
    (refusal : StorageError) (s t : ChunkStore) : Prop :=
  ∃ call u, u = s.afterAll (chunkCalls base chunkSize.toNat value (List.range i)) ∧
    s.AllServed u ∧ u.refusal? call = some refusal ∧ t = u.after call ∧
    (value.length < UInt64.size →
      (i < chunkCount chunkSize.toNat value.length ∧
        call = chunkCall base chunkSize.toNat value i) ∨
      (i = chunkCount chunkSize.toNat value.length ∧
        call = .store base (manifestOf chunkSize value).encode))

/-- What a write leaves that was cut short. -/
theorem CutShort.unfinished {base : String} {chunkSize : ChunkSize} {value : Bytes} {i : Nat}
    {refusal : StorageError} {s t : ChunkStore} {before : Contents}
    (hcut : CutShort base chunkSize value i refusal s t)
    (hbegun : s.contents = before.erase base) (hfits : value.length < UInt64.size) :
    Unfinished base chunkSize.toNat value i before t.contents := by
  obtain ⟨call, u, rfl, hserved, hrefused, rfl, hcall⟩ := hcut
  have hle : i ≤ chunkCount chunkSize.toNat value.length :=
    (hcall hfits).elim (fun h => Nat.le_of_lt h.1) fun h => Nat.le_of_eq h.1
  have hcount := chunkCount_lt chunkSize.toNat_pos hfits
  have hstart : Unfinished base chunkSize.toNat value 0 before s.contents := by
    rw [hbegun]
    exact .begun base chunkSize.toNat value before
  rw [ChunkStore.contents_after_of_refused _ _ hrefused]
  rw [List.range_eq_range'] at hserved ⊢
  have hchunks := hstart.afterAll hserved (by omega)
  rw [Nat.zero_add] at hchunks
  exact hchunks

namespace ChunkWriter

variable {base : String} {value : Bytes} {s : ChunkStore}

/-- What comes of finishing a value whose full chunks are stored: what is left of its
`count` chunks and then its manifest are stored, up to the first call that is refused. -/
inductive Completes (base : String) (size : Nat) (value : Bytes) (full count : Nat)
    (whole : ChunkWriter) (s : ChunkStore) :
    Except VaultError Manifest × ChunkWriter × ChunkStore → Prop where
  | refused {i : Nat} {refusal : StorageError} {call : Call} (failed : ChunkWriter)
      (u : ChunkStore) (hfull : full ≤ i)
      (hcall : (i < count ∧ call = chunkCall base size value i) ∨
        (i = count ∧ call = .store base whole.manifest.encode))
      (hbefore : u = s.afterAll (chunkCalls base size value (List.range' full (i - full))))
      (hserved : s.AllServed u) (hrefused : u.refusal? call = some refusal)
      (hfailed : failed.state = .failed (.ofNat i)) :
      Completes base size value full count whole s
        (.error (.chunkCommitFailed (.ofNat i) refusal), failed, u.after call)
  | closed (u : ChunkStore)
      (hstored : u = s.afterAll (chunkCalls base size value (List.range' full (count - full))))
      (hserved : s.AllServed u)
      (hmanifest : u.refusal? (.store base whole.manifest.encode) = none) :
      Completes base size value full count whole s
        (.ok whole.manifest, { whole with replaced := 0, state := .finished },
          (u.after (.store base whole.manifest.encode)).afterAll (removeCalls base
            (List.range' whole.committed.toNat (whole.replaced.toNat - whole.committed.toNat))))

/-- Once all chunks are stored the value is closed, unless its manifest is refused. -/
theorem Completes.of_close {size full count : Nat} {whole : ChunkWriter} {u : ChunkStore}
    (hfull : full ≤ count) (hcommitted : whole.committed = .ofNat count) (hbase : whole.base = base)
    (hstored : u = s.afterAll (chunkCalls base size value (List.range' full (count - full))))
    (hserved : s.AllServed u) :
    Completes base size value full count whole s (whole.close u) := by
  subst hbase
  rcases close_cases whole u with ⟨refusal, hrefused, hclose⟩ | ⟨hmanifest, hclose⟩
  · rw [hclose, hcommitted]
    exact .refused _ u hfull (.inr ⟨rfl, rfl⟩) hstored hserved hrefused rfl
  · rw [hclose]
    exact .closed u hstored hserved hmanifest

/-- A writer that is writing stores what it has buffered, if a chunk is due, and closes its
value. -/
theorem finish_writing_completes (base : String) (chunkSize : ChunkSize) (replaced : UInt64)
    (value : Bytes) (s : ChunkStore) :
    let w := writing base chunkSize replaced value
    let full := value.length / chunkSize.toNat
    ∃ count, full ≤ count ∧
      (value.length < UInt64.size → count = chunkCount chunkSize.toNat value.length) ∧
      Completes base chunkSize.toNat value full count w.complete s (w.finish s) := by
  intro w full
  have hensure : w.ensureWriting = .ok () := ensureWriting_of_writing rfl
  by_cases hdue : w.buffer.size ≠ 0 ∨ w.committed = 0
  · have hcall : Call.store (chunkKey w.base w.committed) w.buffer.toList =
        chunkCall base chunkSize.toNat value full := by
      rw [toList_buffer_writing]
      rfl
    have hcomplete : w.complete = w.stored := if_pos hdue
    have hcommitted : w.stored.committed = .ofNat (full + 1) := (UInt64.ofNat_add full 1).symm
    have hone : List.range' full (full + 1 - full) = [full] := by
      rw [Nat.add_sub_cancel_left]
      rfl
    refine ⟨full + 1, Nat.le_succ full, fun hfits => ?_, ?_⟩
    · rcases lastChunk_cases base chunkSize replaced hfits with ⟨-, hcount, -⟩ | ⟨hnone, -⟩
      · exact hcount.symm
      · exact absurd hdue hnone
    · have hcommit := commitChunk_cases w s
      rw [hcall] at hcommit
      rcases hcommit with ⟨refusal, hrefused, hcommit⟩ | ⟨hserved, hcommit⟩
      · have hfinish : w.finish s = (.error (.chunkCommitFailed w.committed refusal),
            w.fail w.committed, s.after (chunkCall base chunkSize.toNat value full)) := by
          simp only [finish, hensure, if_pos hdue, hcommit]
        rw [hfinish]
        exact .refused _ s (Nat.le_refl full) (.inl ⟨Nat.lt_succ_self full, rfl⟩)
          (by rw [Nat.sub_self]; rfl) (.refl s) hrefused rfl
      · have hfinish : w.finish s =
            w.stored.close (s.after (chunkCall base chunkSize.toNat value full)) := by
          simp only [finish, hensure, if_pos hdue, hcommit]
        rw [hfinish, hcomplete]
        exact .of_close (Nat.le_succ full) hcommitted rfl (by rw [hone]; rfl)
          (ChunkStore.allServed_after hserved)
  · have hfinish : w.finish s = w.close s := by
      simp only [finish, hensure, if_neg hdue]
    have hcomplete : w.complete = w := if_neg hdue
    refine ⟨full, Nat.le_refl full, fun hfits => ?_, ?_⟩
    · rcases lastChunk_cases base chunkSize replaced hfits with ⟨hlast, -⟩ | ⟨-, hcount⟩
      · exact absurd hlast hdue
      · exact hcount.symm
    · rw [hfinish, hcomplete]
      exact .of_close (Nat.le_refl full) rfl rfl (by rw [Nat.sub_self]; rfl) (.refl s)

end ChunkWriter

end ContentVault
