import ContentVault.Proofs.FailingInput
import ContentVault.Proofs.InterruptedWrite

/-!
# Chunks that are left over

How many chunks a value has is known from its manifest, and storing the next value begins by
removing that manifest.  If a value is completed, its surplus chunks go once the next value is
completed as well; what an interrupted store has left, or what it found, is left over until
another value has a chunk in the same place.
-/

namespace ContentVault

open ChunkStore (Calls)

/-- One time that a value was stored, by the calls that were made and what became of them, the
last one first. -/
abbrev Attempt := List Event

namespace Attempt

def Stored (key : String) (attempt : Attempt) : Prop :=
  ∃ value, ⟨.store key value, true⟩ ∈ attempt

variable {key : String} {event : Event} {attempt : Attempt}

theorem stored_cons : Stored key (event :: attempt) ↔
    (∃ value, event = ⟨.store key value, true⟩) ∨ Stored key attempt := by
  simp only [Stored, List.mem_cons, exists_or, eq_comm]

theorem stored_append {more : Attempt} :
    Stored key (more ++ attempt) ↔ Stored key more ∨ Stored key attempt := by
  simp only [Stored, List.mem_append, exists_or]

/-- A refused call stores nothing. -/
theorem stored_cons_refused (call : Call) :
    Stored key (⟨call, false⟩ :: attempt) ↔ Stored key attempt := by
  rw [stored_cons, or_iff_right]
  rintro ⟨value, heq⟩
  cases heq

theorem not_stored_of_forall (hnone : ∀ event ∈ attempt, ∀ value, event.call ≠ .store key value) :
    ¬Stored key attempt := by
  rintro ⟨value, hmem⟩
  exact hnone _ hmem value rfl

theorem not_stored_events {calls : List Call}
    (hnone : ∀ call ∈ calls, ∀ value, call ≠ .store key value) (s : ChunkStore) :
    ¬Stored key (s.events calls).reverse := by
  apply not_stored_of_forall
  intro event hmem
  apply hnone
  rw [← ChunkStore.map_call_events calls s]
  exact List.mem_map_of_mem (List.mem_reverse.1 hmem)

end Attempt

open Attempt (Stored)

namespace ChunkStore

variable {Allowed : Call → Prop} {calls : List Call} {key : String} {s t : ChunkStore}

/-- The store may refuse to store something, but nothing else. -/
structure RefusesOnlyStores (s : ChunkStore) : Prop where
  load : ∀ tally key, s.plan tally (.load key) = none
  remove : ∀ tally key, s.plan tally (.remove key) = none

theorem RefusesOnlyStores.of_calls (honly : s.RefusesOnlyStores) (hcalls : Calls Allowed s t) :
    t.RefusesOnlyStores where
  load := by
    rw [hcalls.plan_eq]
    exact honly.load
  remove := by
    rw [hcalls.plan_eq]
    exact honly.remove

/-- What is removed stays away as long as nothing but removals follow. -/
theorem RefusesOnlyStores.getElem?_afterAll_removed (honly : s.RefusesOnlyStores)
    (hremoves : ∀ call ∈ calls, ∃ key, call = .remove key) (hmem : .remove key ∈ calls) :
    (s.afterAll calls).contents[key]? = none := by
  obtain ⟨before, after, rfl⟩ := List.append_of_mem hmem
  have hserved : (s.afterAll before).refusal? (.remove key) = none := by
    rw [refusal?, plan_afterAll]
    exact honly.remove _ key
  have hgone : ((s.afterAll before).after (.remove key)).contents[key]? = none := by
    rw [contents_after_of_served _ _ hserved, Call.apply, Std.ExtTreeMap.getElem?_erase_self]
  have hafter : ∀ call ∈ after, ∃ key, call = .remove key := fun call hcall =>
    hremoves call (List.mem_append_right before (List.mem_cons_of_mem _ hcall))
  rw [afterAll_append, afterAll_cons]
  refine (calls_afterAll hafter _).preserves (fun u => u.contents[key]? = none) ?_ hgone
  rintro u _ ⟨key', rfl⟩ hu
  rcases contents_after_cases (.remove key') u with heq | heq
  · rw [heq, hu]
  · rw [heq, Call.apply, Std.ExtTreeMap.getElem?_erase, hu, ite_self]

/-- Chunks are removed by their indices, and the others stay. -/
theorem RefusesOnlyStores.chunk_afterAll_removeCalls (honly : s.RefusesOnlyStores) (base : String)
    {first count : Nat} (hfits : first + count ≤ UInt64.size) (i : UInt64) :
    (s.afterAll (removeCalls base (List.range' first count))).contents[chunkKey base i]? =
      if first ≤ i.toNat ∧ i.toNat < first + count then none
      else s.contents[chunkKey base i]? := by
  by_cases hi : first ≤ i.toNat ∧ i.toNat < first + count
  · rw [if_pos hi]
    apply honly.getElem?_afterAll_removed
    · intro call hmem
      obtain ⟨j, -, rfl⟩ := List.mem_map.1 hmem
      exact ⟨_, rfl⟩
    · exact List.mem_map.2 ⟨i.toNat, List.mem_range'_1.2 hi, by rw [UInt64.ofNat_toNat]⟩
  · rw [if_neg hi]
    apply getElem?_afterAll_of_key_ne
    intro call hmem heq
    obtain ⟨j, hj, hkey⟩ := key_of_mem_removeCalls hmem
    rw [List.mem_range'_1] at hj
    have hij : i.toNat = j := by
      rw [(chunkKey_injective (heq.symm.trans hkey)).2, UInt64.toNat_ofNat_of_lt' (by omega)]
    rw [hij] at hi
    exact hi hj

end ChunkStore

/-- Up to here, an attempt has stored so many chunks of a value and no manifest. -/
structure Underway (base : String) (size : Nat) (value : Bytes) (count : Nat)
    (s t : ChunkStore) : Prop where
  contents : Unfinished base size value count s.contents t.contents
  attempt : ∃ attempt : Attempt, t.history = attempt ++ s.history ∧
    (∀ i, Stored (chunkKey base i) attempt ↔ i.toNat < count) ∧ ¬Stored base attempt

namespace Underway

variable {base : String} {size count : Nat} {value : Bytes} {s t u : ChunkStore}

/-- An attempt begins by looking the manifest up and removing it. -/
theorem begun (base : String) (size : Nat) (value : Bytes)
    (hremove : (s.after (.load base)).refusal? (.remove base) = none) :
    Underway base size value 0 s (s.afterAll [.load base, .remove base]) where
  contents := by
    rw [ChunkStore.afterAll_cons, ChunkStore.afterAll_cons, ChunkStore.afterAll_nil,
      ChunkStore.contents_after_of_served _ _ hremove, ChunkStore.contents_after_load]
    exact .begun base size value s.contents
  attempt := by
    have hnone (key : String) : ¬Stored key (s.events [.load base, .remove base]).reverse := by
      apply Attempt.not_stored_events
      intro call hmem value heq
      rw [heq] at hmem
      simp at hmem
    exact ⟨_, ChunkStore.history_afterAll _ s,
      fun i => iff_of_false (hnone _) (Nat.not_lt_zero _), hnone base⟩

theorem append (data : Bytes) (hfull : count * size ≤ value.length)
    (hunderway : Underway base size value count s t) :
    Underway base size (value ++ data) count s t where
  contents := hunderway.contents.append data hfull
  attempt := hunderway.attempt

/-- Looking up keys does not get the attempt any further. -/
theorem load (hcalls : Calls Call.IsLoad t u) (hunderway : Underway base size value count s t) :
    Underway base size value count s u where
  contents := by
    rw [hcalls.contents_eq_of_isLoad]
    exact hunderway.contents
  attempt := by
    obtain ⟨attempt, hhistory, hchunks, hmanifest⟩ := hunderway.attempt
    obtain ⟨loads, hloads, hisLoad⟩ := hcalls.exists_history
    have hnone (key : String) : ¬Stored key loads := by
      apply Attempt.not_stored_of_forall
      intro event hmem value heq
      obtain ⟨key', hload⟩ := hisLoad event hmem
      cases heq.symm.trans hload
    refine ⟨loads ++ attempt, ?_, fun i => ?_, ?_⟩
    · rw [hloads, hhistory, List.append_assoc]
    · rw [Attempt.stored_append, or_iff_right (hnone _), hchunks]
    · rw [Attempt.stored_append, or_iff_right (hnone _)]
      exact hmanifest

/-- A refused call does not get the attempt any further. -/
theorem refused {call : Call} {refusal : StorageError}
    (hrefused : t.refusal? call = some refusal) (hunderway : Underway base size value count s t) :
    Underway base size value count s (t.after call) where
  contents := by
    rw [ChunkStore.contents_after_of_refused _ _ hrefused]
    exact hunderway.contents
  attempt := by
    obtain ⟨attempt, hhistory, hchunks, hmanifest⟩ := hunderway.attempt
    refine ⟨⟨call, false⟩ :: attempt, ?_, fun i => ?_, ?_⟩
    · rw [ChunkStore.history_after, hrefused, hhistory]
      rfl
    · rw [Attempt.stored_cons_refused, hchunks]
    · rw [Attempt.stored_cons_refused]
      exact hmanifest

/-- The next chunk gets the attempt on by one. -/
theorem store (hcount : count < UInt64.size)
    (hserved : t.refusal? (chunkCall base size value count) = none)
    (hunderway : Underway base size value count s t) :
    Underway base size value (count + 1) s (t.after (chunkCall base size value count)) where
  contents := by
    rw [ChunkStore.contents_after_of_served _ _ hserved]
    exact hunderway.contents.insert hcount
  attempt := by
    obtain ⟨attempt, hhistory, hchunks, hmanifest⟩ := hunderway.attempt
    refine ⟨⟨chunkCall base size value count, true⟩ :: attempt, ?_, fun i => ?_, ?_⟩
    · rw [ChunkStore.history_after, hserved, hhistory]
      rfl
    · have hnext : (∃ data, (⟨chunkCall base size value count, true⟩ : Event) =
          ⟨.store (chunkKey base i) data, true⟩) ↔ i.toNat = count := by
        constructor
        · rintro ⟨data, heq⟩
          have hkey := congrArg (fun event => event.call.key) heq
          rw [← (chunkKey_injective hkey).2, UInt64.toNat_ofNat_of_lt' hcount]
        · rintro rfl
          exact ⟨_, by rw [chunkCall, UInt64.ofNat_toNat]⟩
      rw [Attempt.stored_cons, hnext, hchunks]
      omega
    · rw [Attempt.stored_cons, not_or]
      refine ⟨?_, hmanifest⟩
      rintro ⟨data, heq⟩
      exact chunkKey_ne_self base (.ofNat count) (congrArg (fun event => event.call.key) heq)

/-- Chunks that are stored one after the other get the attempt on by their number. -/
theorem afterAll {first : Nat} (hunderway : Underway base size value first s t)
    (hserved : t.AllServed (t.afterAll (chunkCalls base size value (List.range' first count))))
    (hfits : first + count ≤ UInt64.size) :
    Underway base size value (first + count) s
      (t.afterAll (chunkCalls base size value (List.range' first count))) := by
  apply afterAll_chunkCalls_induction (fun i u => Underway base size value i s u) _ hserved
    hunderway
  intro i u hi hcall hreached
  exact hreached.store (Nat.lt_of_lt_of_le hi hfits) hcall

end Underway

/-- What an attempt has made of the chunks beneath a base key.  The manifest tells of those it
has stored if it has come to its end; and of the chunks that were there it has taken away those
that the manifest before told of, if it has come to its end and has stored none in their place. -/
structure Attempted (base : String) (attempt : Attempt) (before after : Contents) : Prop where
  recorded : ∀ i, i < after.recordedChunks base ↔
    Stored (chunkKey base i) attempt ∧ Stored base attempt
  present : ∀ i, (after[chunkKey base i]?).isSome ↔ Stored (chunkKey base i) attempt ∨
    ((before[chunkKey base i]?).isSome ∧ ¬(Stored base attempt ∧ i < before.recordedChunks base))

section Attempted

variable {base : String} {size count : Nat} {value : Bytes} {s t : ChunkStore}

theorem Unfinished.isSome_iff {before after : Contents}
    (hunfinished : Unfinished base size value count before after) (i : UInt64) :
    (after[chunkKey base i]?).isSome ↔
      i.toNat < count ∨ (before[chunkKey base i]?).isSome := by
  by_cases hi : i.toNat < count
  · have hchunk := hunfinished.chunks i.toNat hi
    rw [UInt64.ofNat_toNat] at hchunk
    rw [hchunk]
    exact iff_of_true rfl (.inl hi)
  · have hkept := hunfinished.others (chunkKey base i) (chunkKey_ne_self base i) fun j hj heq => by
      have hij : i = .ofNat j := (chunkKey_injective heq).2
      rw [hij, UInt64.toNat_ofNat'] at hi
      exact hi (Nat.lt_of_le_of_lt (Nat.mod_le _ _) hj)
    rw [hkept, or_iff_right hi]

/-- An attempt that was interrupted takes nothing away, and leaves no manifest. -/
theorem Underway.attempted (hunderway : Underway base size value count s t) :
    ∃ attempt : Attempt, t.history = attempt ++ s.history ∧
      Attempted base attempt s.contents t.contents := by
  obtain ⟨attempt, hhistory, hchunks, hmanifest⟩ := hunderway.attempt
  refine ⟨attempt, hhistory, fun i => ?_, fun i => ?_⟩
  · have hnone : t.contents.recordedChunks base = 0 := by
      rw [Contents.recordedChunks, hunderway.contents.manifest]
    rw [hnone]
    exact iff_of_false UInt64.not_lt_zero fun hboth => hmanifest hboth.2
  · rw [hunderway.contents.isSome_iff, hchunks, and_iff_left fun hboth => hmanifest hboth.1]

structure Attempt.Completed (attempt : Attempt) (base : String) (chunkSize : ChunkSize)
    (value : Bytes) (after : Contents) : Prop where
  manifest : after[base]? = some (manifestOf chunkSize value).encode
  closed : Stored base attempt
  chunks : ∀ i, Stored (chunkKey base i) attempt ↔
    i.toNat < chunkCount chunkSize.toNat value.length

section Closing

variable {u : ChunkStore} {manifest : Manifest} {surplus : Nat}

/-- The store once a manifest was stored under a base key and chunks were removed from an
index on. -/
def closedOver (base : String) (manifest : Manifest) (first surplus : Nat) (u : ChunkStore) :
    ChunkStore :=
  (u.after (.store base manifest.encode)).afterAll (removeCalls base (List.range' first surplus))

/-- With the manifest the attempt is at its end, and what it removes then it has not stored. -/
theorem Underway.exists_closed (hunderway : Underway base size value count s u)
    (hmanifest : u.refusal? (.store base manifest.encode) = none) :
    ∃ attempt : Attempt, (closedOver base manifest count surplus u).history = attempt ++ s.history ∧
      Stored base attempt ∧ ∀ i, Stored (chunkKey base i) attempt ↔ i.toNat < count := by
  obtain ⟨stored, hhistory, hcommitted, -⟩ := hunderway.attempt
  let removals := ((u.after (.store base manifest.encode)).events
    (removeCalls base (List.range' count surplus))).reverse
  have hnone (key : String) : ¬Stored key removals := by
    apply Attempt.not_stored_events
    intro call hmem value heq
    obtain ⟨i, -, hcall⟩ := List.mem_map.1 hmem
    cases hcall.trans heq
  refine ⟨removals ++ ⟨.store base manifest.encode, true⟩ :: stored, ?_, ?_, fun i => ?_⟩
  · rw [closedOver, ChunkStore.history_afterAll, ChunkStore.history_after, hmanifest,
      hhistory, List.append_assoc]
    rfl
  · rw [Attempt.stored_append, Attempt.stored_cons]
    exact .inr (.inl ⟨_, rfl⟩)
  · rw [Attempt.stored_append, or_iff_right (hnone _), Attempt.stored_cons, or_iff_right,
      hcommitted]
    rintro ⟨data, heq⟩
    exact chunkKey_ne_self base i (congrArg (fun event => event.call.key) heq).symm

/-- The manifest stays, and of the chunks those that were removed are gone. -/
theorem Underway.contents_closed (hunderway : Underway base size value count s u)
    (honly : u.RefusesOnlyStores)
    (hmanifest : u.refusal? (.store base manifest.encode) = none)
    (hfits : count + surplus ≤ UInt64.size) :
    (closedOver base manifest count surplus u).contents[base]? = some manifest.encode ∧
      ∀ i, ((closedOver base manifest count surplus u).contents[chunkKey base i]?).isSome ↔
        i.toNat < count ∨
          ((s.contents[chunkKey base i]?).isSome ∧ ¬i.toNat < count + surplus) := by
  have honly' : (u.after (.store base manifest.encode)).RefusesOnlyStores :=
    honly.of_calls (Calls.single rfl : Calls (fun call => call = _) u _)
  have hstored : (u.after (.store base manifest.encode)).contents =
      u.contents.insert base manifest.encode :=
    ChunkStore.contents_after_of_served _ _ hmanifest
  refine ⟨?_, fun i => ?_⟩
  · rw [closedOver, ChunkStore.getElem?_afterAll_of_key_ne, hstored,
      Std.ExtTreeMap.getElem?_insert_self]
    intro call hmem heq
    obtain ⟨i, -, hkey⟩ := key_of_mem_removeCalls hmem
    exact chunkKey_ne_self base (.ofNat i) (hkey.symm.trans heq)
  · rw [closedOver, honly'.chunk_afterAll_removeCalls base hfits, hstored,
      Std.ExtTreeMap.getElem?_insert, if_neg fun heq =>
        chunkKey_ne_self base i (Std.LawfulEqOrd.compare_eq_iff_eq.1 heq).symm]
    by_cases hi : count ≤ i.toNat ∧ i.toNat < count + surplus
    · rw [if_pos hi]
      exact iff_of_false Bool.false_ne_true fun h => by omega
    · have hi' : i.toNat < count ∨ ¬i.toNat < count + surplus := by omega
      rw [if_neg hi, hunderway.contents.isSome_iff]
      rcases hi' with hlt | hge
      · exact iff_of_true (.inl hlt) (.inl hlt)
      · rw [and_iff_left hge]

/-- Closing a value removes the chunks that the manifest before told of behind the last of its
own. -/
theorem Underway.closed {chunkSize : ChunkSize}
    (hunderway : Underway base chunkSize.toNat value (chunkCount chunkSize.toNat value.length) s u)
    (hfits : value.length < UInt64.size) (honly : u.RefusesOnlyStores)
    (hmanifest : u.refusal? (.store base (manifestOf chunkSize value).encode) = none)
    (hclosed : t = closedOver base (manifestOf chunkSize value)
      (chunkCount chunkSize.toNat value.length)
      ((s.contents.recordedChunks base).toNat - chunkCount chunkSize.toNat value.length) u) :
    ∃ attempt : Attempt, t.history = attempt ++ s.history ∧
      Attempted base attempt s.contents t.contents ∧
      attempt.Completed base chunkSize value t.contents := by
  have hcount := chunkCount_lt chunkSize.toNat_pos hfits
  have hrecorded : (s.contents.recordedChunks base).toNat < UInt64.size :=
    (s.contents.recordedChunks base).toNat_lt
  have hsurplus : chunkCount chunkSize.toNat value.length +
      ((s.contents.recordedChunks base).toNat - chunkCount chunkSize.toNat value.length) ≤
        UInt64.size := by omega
  subst hclosed
  obtain ⟨attempt, hhistory, hends, hchunks⟩ := hunderway.exists_closed hmanifest
  obtain ⟨hbase, hpresent⟩ := hunderway.contents_closed honly hmanifest hsurplus
  refine ⟨attempt, hhistory, ⟨fun i => ?_, fun i => ?_⟩, hbase, hends, hchunks⟩
  · rw [Contents.recordedChunks, hbase]
    simp only [Manifest.decode_encode]
    rw [hchunks, and_iff_left hends, UInt64.lt_iff_toNat_lt,
      toNat_chunks_manifestOf chunkSize hfits]
  · rw [hpresent, hchunks, and_iff_right hends, UInt64.lt_iff_toNat_lt]
    by_cases hi : i.toNat < chunkCount chunkSize.toNat value.length
    · exact iff_of_true (.inl hi) (.inl hi)
    · have hbehind : i.toNat < chunkCount chunkSize.toNat value.length +
          ((s.contents.recordedChunks base).toNat - chunkCount chunkSize.toNat value.length) ↔
          i.toNat < (s.contents.recordedChunks base).toNat := by omega
      rw [hbehind]

end Closing

end Attempted

section Writing

variable {base : String} {chunkSize : ChunkSize} {replaced : UInt64} {value accepted data : Bytes}
  {s t : ChunkStore}

/-- The full chunks of a value are fewer than its bytes can be. -/
theorem div_length_le (chunkSize : ChunkSize) (hfits : value.length < UInt64.size) :
    value.length / chunkSize.toNat ≤ UInt64.size :=
  Nat.le_trans (Nat.div_le_self _ _) (Nat.le_of_lt hfits)

/-- Bytes that are written get the attempt on by the chunks they fill, or up to the one that is
refused. -/
theorem Underway.fills {w : ChunkWriter}
    {outcome : Except VaultError Unit × ChunkWriter × ChunkStore}
    (hunderway : Underway base chunkSize.toNat accepted (accepted.length / chunkSize.toNat) s t)
    (hfits : (accepted ++ data).length < UInt64.size)
    (hfills : ChunkWriter.Fills base chunkSize.toNat (accepted ++ data)
      (accepted.length / chunkSize.toNat) ((accepted ++ data).length / chunkSize.toNat) t w
      outcome) :
    ∃ count, Underway base chunkSize.toNat (accepted ++ data) count s outcome.2.2 ∧
      (outcome.1 = .ok () → count = (accepted ++ data).length / chunkSize.toNat) := by
  have hbytes := div_length_le chunkSize hfits
  have hstart := hunderway.append data (Nat.div_mul_le_self _ _)
  cases hfills with
  | taken t' hstored hserved =>
    subst hstored
    have hle := div_length_le_append accepted data chunkSize.toNat
    have hreached := hstart.afterAll hserved (by omega)
    rw [Nat.add_sub_cancel' hle] at hreached
    exact ⟨_, hreached, fun _ => rfl⟩
  | @refused i refusal failed u hfirst hlast hbefore hserved hrefused hfailed =>
    subst hbefore
    have hreached := hstart.afterAll hserved (by omega)
    exact ⟨_, hreached.refused hrefused, fun hok => by cases hok⟩

/-- Finishing a value brings the attempt to its end, or up to the call that is refused. -/
theorem Underway.finish
    (hunderway : Underway base chunkSize.toNat value (value.length / chunkSize.toNat) s t)
    (hfits : value.length < UInt64.size) (honly : t.RefusesOnlyStores)
    {result : Except VaultError Manifest} {w : ChunkWriter} {t' : ChunkStore}
    (hfinish :
      (ChunkWriter.writing base chunkSize (s.contents.recordedChunks base) value).finish t =
        (result, w, t')) :
    ∃ attempt : Attempt, t'.history = attempt ++ s.history ∧
      Attempted base attempt s.contents t'.contents ∧
      ∀ manifest, result = .ok manifest → attempt.Completed base chunkSize value t'.contents := by
  have hchunks := chunkCount_lt chunkSize.toNat_pos hfits
  have hmanifest := ChunkWriter.manifest_complete_writing base chunkSize
    (s.contents.recordedChunks base) hfits
  obtain ⟨count, hfull, hcount, hcompletes⟩ := ChunkWriter.finish_writing_completes base chunkSize
    (s.contents.recordedChunks base) value t
  obtain rfl := hcount hfits
  rw [hfinish] at hcompletes
  cases hcompletes with
  | @refused i refusal call failed u hfirst hcall hbefore hserved hrefused hfailed =>
    have hle : i ≤ chunkCount chunkSize.toNat value.length :=
      hcall.elim (fun h => Nat.le_of_lt h.1) fun h => Nat.le_of_eq h.1
    subst hbefore
    obtain ⟨attempt, hhistory, hattempted⟩ :=
      ((hunderway.afterAll hserved (by omega)).refused hrefused).attempted
    exact ⟨attempt, hhistory, hattempted, fun _ hok => by cases hok⟩
  | closed u hstored hserved hclosed =>
    have honly' : u.RefusesOnlyStores := by
      rw [hstored]
      exact honly.of_calls (ChunkStore.calls_afterAll (fun _ _ => trivial) t)
    rw [hstored] at hserved
    have hlast := hunderway.afterAll hserved (by omega)
    rw [Nat.add_sub_cancel' hfull, ← hstored] at hlast
    rw [hmanifest] at hclosed ⊢
    rw [ChunkWriter.toNat_committed_of_manifest hmanifest hfits, ChunkWriter.replaced_complete]
    obtain ⟨attempt, hhistory, hattempted, hcompleted⟩ := hlast.closed hfits honly' hclosed rfl
    exact ⟨attempt, hhistory, hattempted, fun _ _ => hcompleted⟩

end Writing

namespace Entry

open ChunkWriter (writing)

section Store

variable {id : StoreId} {base : String} {chunkSize : ChunkSize} {replaced : UInt64}
  {writer reached : ChunkWriter} {source left : Source} {stores now : Stores}
  {before accepted : Bytes} {s : ChunkStore}

/-- Copying gets the attempt on by the chunks that are full. -/
theorem CopiesUpTo.underway
    (hrun : CopiesUpTo id writer source stores accepted reached left now)
    (hwriter : writer = writing base chunkSize replaced before)
    (hunderway : Underway base chunkSize.toNat before (before.length / chunkSize.toNat) s
      (stores.get id))
    (hfits : (before ++ accepted).length < UInt64.size) :
    Underway base chunkSize.toNat (before ++ accepted)
      ((before ++ accepted).length / chunkSize.toNat) s (now.get id) := by
  induction hrun generalizing before with
  | start =>
    rw [List.append_nil]
    exact hunderway
  | @accepted writer writer' _ _ _ _ _ stores' _ u piece bytes hread hpiece hwrite _ ih =>
    have hfills := ChunkWriter.write_writing base chunkSize replaced before piece (stores'.get id)
    rw [← hwriter, hwrite] at hfills
    rw [← List.append_assoc] at hfits ⊢
    obtain ⟨count, hreached, hcount⟩ :=
      (hunderway.load (Source.calls_of_read hread id)).fills (fits_of_append hfits) hfills
    obtain rfl := hcount rfl
    have hwriter' : writer' = writing base chunkSize replaced (before ++ piece) := by
      cases hfills
      rfl
    apply ih hwriter' _ hfits
    rw [Stores.get_insert_self]
    exact hreached
  | again hread _ _ ih =>
    exact ih hwriter (hunderway.load (Source.calls_of_read hread id)) hfits

/-- So it does from the beginning of the attempt. -/
theorem CopiesUpTo.underway_of_begun
    (hrun : CopiesUpTo id (writing base chunkSize replaced []) source stores accepted reached left
      now)
    (hbegun : Underway base chunkSize.toNat [] 0 s (stores.get id))
    (hfits : accepted.length < UInt64.size) :
    reached = writing base chunkSize replaced accepted ∧
      Underway base chunkSize.toNat accepted (accepted.length / chunkSize.toNat) s (now.get id) := by
  refine ⟨hrun.eq_writing rfl, hrun.underway rfl ?_ hfits⟩
  rw [List.length_nil, Nat.zero_div]
  exact hbegun

/-- Once the source is read no further, finishing decides what comes of the attempt. -/
theorem CopiesUpTo.exists_finish {outcome : Except IoError Bytes} {after : Source} {now' : Stores}
    (hrun : CopiesUpTo id (writing base chunkSize (s.contents.recordedChunks base) []) source stores
      accepted reached left now)
    (hbegun : Underway base chunkSize.toNat [] 0 s (stores.get id))
    (honly : (stores.get id).RefusesOnlyStores) (hfits : accepted.length < UInt64.size)
    (hread : left.read copySize now = (outcome, after, now')) :
    ∃ finished w t, reached.finish (now'.get id) = (finished, w, t) ∧ t.RefusesOnlyStores ∧
      ∃ attempt : Attempt, t.history = attempt ++ s.history ∧
        Attempted base attempt s.contents t.contents ∧
        ∀ manifest, finished = .ok manifest →
          attempt.Completed base chunkSize accepted t.contents := by
  have hloads := Source.calls_of_read hread id
  obtain ⟨hreached, hprogress⟩ := hrun.underway_of_begun hbegun hfits
  have honly' := (honly.of_calls (hrun.calls rfl)).of_calls hloads
  have hcalls := ChunkWriter.calls_finish reached (now'.get id)
  generalize hfinish : reached.finish (now'.get id) = outcome' at hcalls
  obtain ⟨finished, w, t⟩ := outcome'
  rw [hreached] at hfinish
  exact ⟨finished, w, t, rfl, honly'.of_calls hcalls,
    (hprogress.load hloads).finish hfits honly' hfinish⟩

/-- Once a chunk is refused, the attempt is interrupted. -/
theorem CopiesUpTo.exists_write {piece : Bytes} {after : Source} {now' : Stores}
    {error : VaultError} {failed : ChunkWriter} {t : ChunkStore}
    (hrun : CopiesUpTo id (writing base chunkSize (s.contents.recordedChunks base) []) source stores
      accepted reached left now)
    (hbegun : Underway base chunkSize.toNat [] 0 s (stores.get id))
    (honly : (stores.get id).RefusesOnlyStores) (hfits : (accepted ++ piece).length < UInt64.size)
    (hread : left.read copySize now = (.ok piece, after, now'))
    (hwrite : reached.write piece (now'.get id) = (.error error, failed, t)) :
    t.RefusesOnlyStores ∧ ∃ attempt : Attempt, t.history = attempt ++ s.history ∧
      Attempted base attempt s.contents t.contents := by
  have hloads := Source.calls_of_read hread id
  obtain ⟨hreached, hprogress⟩ := hrun.underway_of_begun hbegun (fits_of_append hfits)
  have hfills := ChunkWriter.write_writing base chunkSize (s.contents.recordedChunks base) accepted
    piece (now'.get id)
  rw [← hreached, hwrite] at hfills
  obtain ⟨count, hlast, -⟩ := (hprogress.load hloads).fills hfits hfills
  exact ⟨honly.of_calls (hrun.calls_of_write rfl hread hwrite), hlast.attempted⟩

variable {key : ContentKey} {handle : StoreHandle} {value : Bytes} {failure : Option IoError}
  {v v' : Vault} {result : Except (Failure VaultError) ContentKey}

/-- Where nothing is refused but to store, an attempt begins, and it does so with a writer if
there is a buffer for one. -/
theorem exists_begun {stores : Stores} (base : String) (chunkSize : ChunkSize)
    (honly : (stores.get id).RefusesOnlyStores) :
    ∃ s, ChunkWriter.create base chunkSize (stores.get id) =
        (if chunkSize.IsAllocatable then
            .ok (writing base chunkSize ((stores.get id).contents.recordedChunks base) [])
          else .error .panicked, s) ∧
      Underway base chunkSize.toNat [] 0 (stores.get id) (Stores.get (stores.insert id s) id) ∧
      (Stores.get (stores.insert id s) id).RefusesOnlyStores ∧
      Calls (Call.Within base) (stores.get id) s := by
  have hload := honly.load (stores.get id).tally base
  have hremove : ((stores.get id).after (.load base)).refusal? (.remove base) = none :=
    honly.remove _ _
  have hcreate := ChunkWriter.create_of_served chunkSize hload hremove
  have hwithin := ChunkWriter.calls_create_within base chunkSize (stores.get id)
  rw [hcreate] at hwithin
  refine ⟨_, hcreate, ?_, ?_, hwithin⟩
  · rw [Stores.get_insert_self]
    exact .begun base chunkSize.toNat [] hremove
  · rw [Stores.get_insert_self]
    exact honly.of_calls hwithin

/-- What comes of storing a value where nothing is refused but to store: an attempt, at whose
end the whole value is there if storing it succeeded. -/
theorem exists_attempted (honly : (v.stores.get handle.id).RefusesOnlyStores)
    (hsource : ∀ now, v.stores.ChangesAt handle.id key.dataKey now →
      source.Yields (Stores.ChangesAt handle.id key.dataKey) copySize now value failure)
    (hfits : value.length < UInt64.size)
    (hstore : (Entry.mk (.chunked handle chunkSize) key).store source v = (result, left, v')) :
    (v'.stores.get handle.id).RefusesOnlyStores ∧
      ∃ attempt : Attempt,
        (v'.stores.get handle.id).history = attempt ++ (v.stores.get handle.id).history ∧
        Attempted key.dataKey attempt (v.stores.get handle.id).contents
          (v'.stores.get handle.id).contents ∧
        ∀ stored, result = .ok stored → attempt.Completed key.dataKey chunkSize value
          (v'.stores.get handle.id).contents := by
  obtain ⟨s, hcreate, hbegun, honly', hwithin⟩ := exists_begun key.dataKey chunkSize honly
  by_cases hbuffer : chunkSize.IsAllocatable
  case neg =>
    rw [if_neg hbuffer] at hcreate
    rw [store_chunked, storeChunks_of_create_error hcreate] at hstore
    cases hstore
    obtain ⟨attempt, hhistory, hattempted⟩ := hbegun.attempted
    exact ⟨honly', attempt, hhistory, hattempted, fun stored hok => by cases hok⟩
  rw [if_pos hbuffer] at hcreate
  have hyields := hsource (v.stores.insert handle.id s) (.insert hwithin)
  obtain ⟨bytes, hcopies⟩ := exists_copies handle.id (writing key.dataKey chunkSize
    ((v.stores.get handle.id).contents.recordedChunks key.dataKey) []) source
    (v.stores.insert handle.id s)
  obtain ⟨reached, unread, now, hrun, hends⟩ := hcopies.exists_upTo
  obtain ⟨rest, rfl, hunread⟩ := hrun.yields rfl hyields
  rcases hends with ⟨after, now', hread⟩ | ⟨piece, after, now', error, failed, t, hread, hpiece,
    hwrite⟩ | ⟨error, after, now', hread, hfinal⟩
  · obtain ⟨rfl, rfl⟩ := hunread.of_read_nil hread
    rw [List.append_nil] at hfits ⊢
    obtain ⟨finished, w, t, hfinish, hserves, attempt, hhistory, hattempted, hcompleted⟩ :=
      hrun.exists_finish hbegun honly' hfits hread
    rw [store_chunked, storeChunks_of_copies hcreate (hrun.copies (.ended hread)), hfinish]
      at hstore
    cases hstore
    rw [Stores.get_insert_self]
    refine ⟨hserves, attempt, hhistory, hattempted, fun stored hok => ?_⟩
    cases finished with
    | error error => cases hok
    | ok manifest => exact hcompleted manifest rfl
  · obtain ⟨rest', rfl, -⟩ := hunread.of_read_piece hread hpiece
    rw [← List.append_assoc] at hfits
    obtain ⟨hserves, attempt, hhistory, hattempted⟩ :=
      hrun.exists_write hbegun honly' (fits_of_append hfits) hread hwrite
    rw [store_of_copies_rejected hcreate (hrun.copies (.rejected hread hpiece hwrite))
      (ChunkWriter.failed_of_write hwrite)] at hstore
    cases hstore
    rw [Stores.get_insert_self]
    exact ⟨hserves, attempt, hhistory, hattempted, fun stored hok => by cases hok⟩
  · obtain ⟨rfl, rfl⟩ := hunread.of_read_error hread hfinal
    rw [List.append_nil] at hfits
    obtain ⟨finished, w, t, hfinish, hserves, attempt, hhistory, hattempted, -⟩ :=
      hrun.exists_finish hbegun honly' hfits hread
    rw [store_chunked, storeChunks_of_copies hcreate
      (hrun.copies (.failed hread (Bool.eq_false_iff.1 hfinal))), hfinish] at hstore
    cases hstore
    rw [Stores.get_insert_self]
    exact ⟨hserves, attempt, hhistory, hattempted, fun stored hok => by cases hok⟩

end Store

section Runs

variable {base : String} {i : UInt64} {attempts : List Attempt} {attempt : Attempt}

/-- The chunk belongs to the value that is there: the last attempt has stored it and come to its
end. -/
def Current (base : String) (i : UInt64) (attempts : List Attempt) : Prop :=
  ∃ before attempt, attempts = before ++ [attempt] ∧ Stored (chunkKey base i) attempt ∧
    Stored base attempt

/-- The chunk is left over: of the attempts, the last one that has stored it was interrupted, or
the one directly after that was. -/
def Orphaned (base : String) (i : UInt64) (attempts : List Attempt) : Prop :=
  ∃ before attempt after, attempts = before ++ attempt :: after ∧
    Stored (chunkKey base i) attempt ∧ (∀ later ∈ after, ¬Stored (chunkKey base i) later) ∧
    (¬Stored base attempt ∨ ∃ next rest, after = next :: rest ∧ ¬Stored base next)

theorem not_current_nil : ¬Current base i [] := by
  rintro ⟨before, last, heq, -⟩
  exact List.append_ne_nil_of_right_ne_nil before (List.cons_ne_nil last []) heq.symm

theorem not_orphaned_nil : ¬Orphaned base i [] := by
  rintro ⟨before, last, after, heq, -⟩
  exact List.append_ne_nil_of_right_ne_nil before (List.cons_ne_nil last after) heq.symm

theorem current_concat : Current base i (attempts ++ [attempt]) ↔
    Stored (chunkKey base i) attempt ∧ Stored base attempt := by
  constructor
  · rintro ⟨before, last, heq, hboth⟩
    obtain ⟨-, hlast⟩ := List.append_inj' heq rfl
    cases hlast
    exact hboth
  · intro hboth
    exact ⟨attempts, attempt, rfl, hboth⟩

/-- An attempt that stores the chunk anew decides by itself whether it is left over.  Any other
leaves over what was so before, and what was current if it is interrupted. -/
theorem orphaned_concat : Orphaned base i (attempts ++ [attempt]) ↔
    (Stored (chunkKey base i) attempt ∧ ¬Stored base attempt) ∨
      (¬Stored (chunkKey base i) attempt ∧
        (Orphaned base i attempts ∨ (Current base i attempts ∧ ¬Stored base attempt))) := by
  constructor
  · rintro ⟨before, last, after, heq, hstored, hnone, hinterrupted⟩
    rcases List.eq_nil_or_concat after with rfl | ⟨between, latest, rfl⟩
    · obtain ⟨-, hlast⟩ := List.append_inj' heq rfl
      cases hlast
      refine .inl ⟨hstored, hinterrupted.resolve_right ?_⟩
      rintro ⟨next, rest, hnil, -⟩
      cases hnil
    · rw [List.concat_eq_append] at heq hnone hinterrupted
      rw [← List.cons_append, ← List.append_assoc] at heq
      obtain ⟨rfl, hlast⟩ := List.append_inj' heq rfl
      cases hlast
      rw [List.forall_mem_append] at hnone
      refine .inr ⟨hnone.2 attempt (List.mem_singleton_self attempt), ?_⟩
      by_cases hends : Stored base last
      · obtain ⟨next, rest, hnext, hopen⟩ := hinterrupted.resolve_left (not_not.2 hends)
        cases between with
        | nil =>
          cases hnext
          exact .inr ⟨⟨before, last, rfl, hstored, hends⟩, hopen⟩
        | cons first between =>
          cases hnext
          exact .inl ⟨before, last, _, rfl, hstored, hnone.1, .inr ⟨_, _, rfl, hopen⟩⟩
      · exact .inl ⟨before, last, between, rfl, hstored, hnone.1, .inl hends⟩
  · rintro (⟨hstored, hopen⟩ | ⟨hnot, horphaned | ⟨⟨before, last, rfl, hstored, -⟩, hopen⟩⟩)
    · exact ⟨attempts, attempt, [], rfl, hstored, fun _ hmem => absurd hmem List.not_mem_nil,
        .inl hopen⟩
    · obtain ⟨before, last, after, rfl, hstored, hnone, hinterrupted⟩ := horphaned
      refine ⟨before, last, after ++ [attempt], List.append_assoc _ _ _, hstored, ?_, ?_⟩
      · exact List.forall_mem_append.2 ⟨hnone, List.forall_mem_singleton.2 hnot⟩
      · rcases hinterrupted with hopen | ⟨next, rest, rfl, hopen⟩
        · exact .inl hopen
        · exact .inr ⟨next, rest ++ [attempt], rfl, hopen⟩
    · exact ⟨before, last, [attempt], List.append_assoc _ _ _, hstored,
        List.forall_mem_singleton.2 hnot, .inr ⟨attempt, [], rfl, hopen⟩⟩

/-- What is left over is not part of the value that is there. -/
theorem Orphaned.not_current (horphaned : Orphaned base i attempts) : ¬Current base i attempts := by
  rcases List.eq_nil_or_concat attempts with rfl | ⟨before, last, rfl⟩
  · exact not_current_nil
  · rw [List.concat_eq_append] at horphaned ⊢
    rw [current_concat]
    rintro ⟨hstored, hends⟩
    rcases orphaned_concat.1 horphaned with ⟨-, hopen⟩ | ⟨hnot, -⟩
    · exact hopen hends
    · exact hnot hstored

/-- What these attempts have left beneath a base key: the chunks of the value that is there, and
those that are left over. -/
structure LeftBy (base : String) (attempts : List Attempt) (contents : Contents) : Prop where
  recorded : ∀ i, i < contents.recordedChunks base ↔ Current base i attempts
  present : ∀ i, (contents[chunkKey base i]?).isSome ↔
    Orphaned base i attempts ∨ Current base i attempts

theorem leftBy_empty (base : String) : LeftBy base [] ∅ where
  recorded := fun i => by
    rw [Contents.recordedChunks, Std.ExtTreeMap.getElem?_empty]
    exact iff_of_false UInt64.not_lt_zero not_current_nil
  present := fun i => by
    rw [Std.ExtTreeMap.getElem?_empty]
    exact iff_of_false Bool.false_ne_true fun h => h.elim not_orphaned_nil not_current_nil

/-- One more attempt takes away of what is current what it does not store anew, if it comes to its
end. -/
theorem LeftBy.concat {before after : Contents} (hleft : LeftBy base attempts before)
    (hattempted : Attempted base attempt before after) :
    LeftBy base (attempts ++ [attempt]) after where
  recorded := fun i => by rw [hattempted.recorded, current_concat]
  present := fun i => by
    rw [hattempted.present, hleft.present, hleft.recorded, orphaned_concat, current_concat]
    by_cases hstored : Stored (chunkKey base i) attempt
    · simp only [hstored, true_and, not_true_eq_false, false_and, or_false, true_or, true_iff]
      exact (em (Stored base attempt)).symm
    · simp only [hstored, false_and, not_false_eq_true, true_and, false_or, or_false]
      constructor
      · rintro ⟨horphaned | hcurrent, hkept⟩
        · exact .inl horphaned
        · exact .inr ⟨hcurrent, fun hends => hkept ⟨hends, hcurrent⟩⟩
      · rintro (horphaned | ⟨hcurrent, hopen⟩)
        · exact ⟨.inl horphaned, fun hboth => horphaned.not_current hboth.2⟩
        · exact ⟨.inr hcurrent, fun hboth => hopen hboth.1⟩

/-- Values are stored one after the other under one key, from sources that may fail, with chunks
of any sizes; these are the attempts. -/
inductive StoreRuns (key : ContentKey) (handle : StoreHandle) (v₀ : Vault) :
    List Attempt → Vault → Prop where
  | start : StoreRuns key handle v₀ [] v₀
  | store {attempts : List Attempt} {attempt : Attempt} {v v' : Vault} {chunkSize : ChunkSize}
      {source left : Source} {value : Bytes} {failure : Option IoError}
      {result : Except (Failure VaultError) ContentKey}
      (hruns : StoreRuns key handle v₀ attempts v)
      (hsource : ∀ now, v.stores.ChangesAt handle.id key.dataKey now →
        source.Yields (Stores.ChangesAt handle.id key.dataKey) copySize now value failure)
      (hfits : value.length < UInt64.size)
      (hstore : (Entry.mk (.chunked handle chunkSize) key).store source v = (result, left, v'))
      (hattempt : (v'.stores.get handle.id).history =
        attempt ++ (v.stores.get handle.id).history) :
      StoreRuns key handle v₀ (attempts ++ [attempt]) v'

variable {key : ContentKey} {handle : StoreHandle} {v₀ v : Vault}

theorem StoreRuns.leftBy (hruns : StoreRuns key handle v₀ attempts v)
    (hempty : (v₀.stores.get handle.id).contents = ∅)
    (honly : (v₀.stores.get handle.id).RefusesOnlyStores) :
    LeftBy key.dataKey attempts (v.stores.get handle.id).contents ∧
      (v.stores.get handle.id).RefusesOnlyStores := by
  induction hruns with
  | start =>
    rw [hempty]
    exact ⟨leftBy_empty key.dataKey, honly⟩
  | store hruns hsource hfits hstore hattempt ih =>
    obtain ⟨hleft, honly'⟩ := ih
    obtain ⟨hserves, attempt, hhistory, hattempted, -⟩ :=
      exists_attempted honly' hsource hfits hstore
    cases List.append_cancel_right (hattempt.symm.trans hhistory)
    exact ⟨hleft.concat hattempted, hserves⟩

/-- After values were stored under one key of an empty store, which may have refused to store any
chunk or manifest, and then one more was stored with success, the chunks that are there are
those of this value and those that are left over. Where no attempt was interrupted none is. -/
theorem present_iff_of_runs (hruns : StoreRuns key handle v₀ attempts v)
    (hempty : (v₀.stores.get handle.id).contents = ∅)
    (honly : (v₀.stores.get handle.id).RefusesOnlyStores) {chunkSize : ChunkSize}
    {source left : Source} {value : Bytes} {failure : Option IoError} {stored : ContentKey}
    {v' : Vault}
    (hsource : ∀ now, v.stores.ChangesAt handle.id key.dataKey now →
      source.Yields (Stores.ChangesAt handle.id key.dataKey) copySize now value failure)
    (hfits : value.length < UInt64.size)
    (hstore : (Entry.mk (.chunked handle chunkSize) key).store source v = (.ok stored, left, v')) :
    (v'.stores.get handle.id).contents[key.dataKey]? = some (manifestOf chunkSize value).encode ∧
      (∀ i, ((v'.stores.get handle.id).contents[chunkKey key.dataKey i]?).isSome ↔
        i.toNat < chunkCount chunkSize.toNat value.length ∨ Orphaned key.dataKey i attempts) ∧
      ((∀ attempt ∈ attempts, Stored key.dataKey attempt) →
        ∀ i, ((v'.stores.get handle.id).contents[chunkKey key.dataKey i]?).isSome ↔
          i.toNat < chunkCount chunkSize.toNat value.length) := by
  obtain ⟨hleft, honly'⟩ := hruns.leftBy hempty honly
  obtain ⟨-, attempt, -, hattempted, hcompletes⟩ := exists_attempted honly' hsource hfits hstore
  have hcompleted := hcompletes stored rfl
  have hpresent (i : UInt64) :
      ((v'.stores.get handle.id).contents[chunkKey key.dataKey i]?).isSome ↔
        i.toNat < chunkCount chunkSize.toNat value.length ∨ Orphaned key.dataKey i attempts := by
    have hgone : (Orphaned key.dataKey i attempts ∨ Current key.dataKey i attempts) ∧
        ¬Current key.dataKey i attempts ↔ Orphaned key.dataKey i attempts :=
      ⟨fun hboth => hboth.1.resolve_right hboth.2,
        fun horphaned => ⟨.inl horphaned, horphaned.not_current⟩⟩
    rw [hattempted.present, hleft.present, hleft.recorded, hcompleted.chunks,
      and_iff_right hcompleted.closed, hgone]
  refine ⟨hcompleted.manifest, hpresent, fun hall i => ?_⟩
  rw [hpresent, or_iff_left]
  rintro ⟨before, last, after, rfl, -, -, hopen | ⟨next, rest, rfl, hopen⟩⟩
  · exact hopen (hall last (by simp))
  · exact hopen (hall next (by simp))

/-- The plan that refuses what is to be stored the fourth time. -/
def fourthPlan : FaultPlan
  | tally, .store _ _ => if tally.stores = 3 then some .engine else none
  | _, _ => none

/-- The value of the key `k` in the one store of a vault, in chunks of three bytes. -/
def triplesEntry : Entry :=
  ⟨.chunked ⟨0, .ofLoader Backend.memoryLoader⟩ ⟨3, by decide⟩, ⟨"k"⟩⟩

/-- Four bytes were stored, in two chunks and with a manifest. -/
def storedVault : Vault :=
  (triplesEntry.store (.ofBytes [97, 98, 99, 100]) (plannedVault fourthPlan)).2.2

/-- Then storing a single byte was interrupted, its only chunk being refused. -/
def interruptedVault : Vault :=
  (triplesEntry.store (.ofBytes [101]) storedVault).2.2

/-- And then the single byte was stored. -/
def overwrittenVault : Vault :=
  (triplesEntry.store (.ofBytes [101]) interruptedVault).2.2

/-- The attempts before the last one. -/
def triplesAttempts : List Attempt :=
  [(storedVault.stores.get 0).history,
    [⟨.store "k-data/0" [101], false⟩, ⟨.remove "k-data", true⟩, ⟨.load "k-data", true⟩]]

theorem refusesOnlyStores_fourthPlan :
    ((plannedVault fourthPlan).stores.get 0).RefusesOnlyStores := by
  rw [plannedVault, Stores.get_insert_self]
  exact ⟨fun _ _ => rfl, fun _ _ => rfl⟩

theorem contents_fourthPlan : ((plannedVault fourthPlan).stores.get 0).contents = ∅ := by
  rw [plannedVault, Stores.get_insert_self]

theorem storeRuns_triplesAttempts :
    StoreRuns ⟨"k"⟩ ⟨0, .ofLoader Backend.memoryLoader⟩ (plannedVault fourthPlan) triplesAttempts
      interruptedVault := by
  have hfirst : triplesEntry.store (.ofBytes [97, 98, 99, 100]) (plannedVault fourthPlan) =
      (_, _, storedVault) := rfl
  have hsecond : triplesEntry.store (.ofBytes [101]) storedVault = (_, _, interruptedVault) := rfl
  have hstored : StoreRuns ⟨"k"⟩ ⟨0, .ofLoader Backend.memoryLoader⟩ (plannedVault fourthPlan)
      [(storedVault.stores.get 0).history] storedVault :=
    .store .start (fun now _ => Source.yields_ofBytes _ (by decide) [97, 98, 99, 100] now) (by decide)
      hfirst (List.append_nil _).symm
  exact .store hstored (fun now _ => Source.yields_ofBytes _ (by decide) [101] now) (by decide)
    hsecond (by decide +kernel)

theorem exists_store_overwrittenVault :
    ∃ left, triplesEntry.store (.ofBytes [101]) interruptedVault =
      (.ok ⟨"k"⟩, left, overwrittenVault) := by
  have hstored :
      (triplesEntry.store (.ofBytes [101]) interruptedVault).1.toOption = some ⟨"k"⟩ := by
    decide +kernel
  refine ⟨(triplesEntry.store (.ofBytes [101]) interruptedVault).2.1, Prod.ext ?_ rfl⟩
  cases hresult : (triplesEntry.store (.ofBytes [101]) interruptedVault).1 with
  | error error =>
    rw [hresult] at hstored
    cases hstored
  | ok stored =>
    rw [hresult] at hstored
    cases hstored
    rfl

/-- The single byte is the first chunk, and the second is there because it is left over. -/
theorem present_iff_of_runs_triplesAttempts :
    (overwrittenVault.stores.get 0).contents["k-data"]? =
        some (manifestOf ⟨3, by decide⟩ [101]).encode ∧
      ∀ i, ((overwrittenVault.stores.get 0).contents[chunkKey "k-data" i]?).isSome ↔
        i.toNat < 1 ∨ Orphaned "k-data" i triplesAttempts := by
  obtain ⟨left, hstore⟩ := exists_store_overwrittenVault
  obtain ⟨hmanifest, hpresent, -⟩ := present_iff_of_runs storeRuns_triplesAttempts
    contents_fourthPlan refusesOnlyStores_fourthPlan
    (fun now _ => Source.yields_ofBytes _ (by decide) [101] now) (by decide) hstore
  exact ⟨hmanifest, hpresent⟩

/-- It is not so that only the chunks of the value are there after it was stored with success:
a chunk from before the interruption is left over. -/
theorem exists_leftover_overwrittenVault :
    StoreRuns ⟨"k"⟩ ⟨0, .ofLoader Backend.memoryLoader⟩ (plannedVault fourthPlan) triplesAttempts
        interruptedVault ∧
      ((plannedVault fourthPlan).stores.get 0).contents = ∅ ∧
      ((plannedVault fourthPlan).stores.get 0).RefusesOnlyStores ∧
      (∃ left, triplesEntry.store (.ofBytes [101]) interruptedVault =
        (.ok ⟨"k"⟩, left, overwrittenVault)) ∧
      ¬∀ i, ((overwrittenVault.stores.get 0).contents[chunkKey "k-data" i]?).isSome ↔
        i.toNat < chunkCount 3 [(101 : UInt8)].length := by
  refine ⟨storeRuns_triplesAttempts, contents_fourthPlan, refusesOnlyStores_fourthPlan,
    exists_store_overwrittenVault, fun hall => ?_⟩
  have hleft : ((overwrittenVault.stores.get 0).contents[chunkKey "k-data" 1]?).isSome := by
    decide +kernel
  exact absurd ((hall 1).1 hleft) (by decide)

end Runs

end Entry

end ContentVault
