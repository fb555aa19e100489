import ContentVault.Proofs.ReaderAcceptance

/-!
# Reading on after refused loads

A store may refuse any load.  Opening a value or reading it then fails for the reason of that
refusal, and the reader stays as it was: whoever reads on gets every byte of the value once
and in order, and finds the end only behind the last of them.
-/

namespace ContentVault

namespace ChunkStore

/-- Every call that was made between two states was served but the last, a load that was
refused for this reason. -/
def EndsRefused (s t : ChunkStore) (refusal : StorageError) : Prop :=
  ∃ u key, s.AllServed u ∧ u.refusal? (.load key) = some refusal ∧ t = u.after (.load key)

variable {s t : ChunkStore} {refusal : StorageError}

theorem endsRefused_after {key : String} (hrefused : s.refusal? (.load key) = some refusal) :
    s.EndsRefused (s.after (.load key)) refusal :=
  ⟨s, key, .refl s, hrefused, rfl⟩

end ChunkStore

namespace ChunkReader

open ChunkStore (AllServed EndsRefused)

variable {r : ChunkReader} {s t : ChunkStore} {base : String} {rest value : Bytes}

/-- Opening fails for the reason of a refused load.  Where none was refused, it finds no
value only if it has looked for both the manifest and the first chunk, and neither is
there. -/
theorem create_answers (base : String) (s : ChunkStore) :
    (∃ refusal, s.EndsRefused (create base s).2 refusal ∧
      (create base s).1 = .error (.backendUnavailable refusal)) ∨
    (s.AllServed (create base s).2 ∧
      ∀ key, (create base s).1 = .error (.backendUnavailable (.notFound key)) →
        key = base ∧ s.contents[base]? = none ∧ s.contents[chunkKey base 0]? = none ∧
        (create base s).2 = (s.after (.load base)).after (.load (chunkKey base 0))) := by
  rw [create, ChunkStore.loadManifest, ChunkStore.load_eq]
  cases hmanifest : s.refusal? (.load base) with
  | some refusal => exact .inl ⟨refusal, ChunkStore.endsRefused_after hmanifest, rfl⟩
  | none =>
    have hserved := ChunkStore.allServed_after hmanifest
    cases hbase : s.contents[base]? with
    | none =>
      simp only [ChunkStore.load_eq]
      cases hchunk : (s.after (.load base)).refusal? (.load (chunkKey base 0)) with
      | some refusal => exact .inl ⟨refusal, ⟨_, _, hserved, hchunk, rfl⟩, rfl⟩
      | none =>
        have hserved' := hserved.trans (ChunkStore.allServed_after hchunk)
        rw [ChunkStore.contents_after_load]
        cases hfirst : s.contents[chunkKey base 0]? with
        | none =>
          refine .inr ⟨hserved', fun key heq => ?_⟩
          cases heq
          simp
        | some chunk => exact .inr ⟨hserved', fun key heq => by cases heq⟩
    | some text =>
      cases hdecode : Manifest.decode text with
      | error fault =>
        simp only [hdecode]
        exact .inr ⟨hserved, fun key heq => by cases heq⟩
      | ok manifest =>
        simp only [hdecode]
        by_cases hzero : manifest.chunkSize = 0
        · rw [if_pos hzero]
          exact .inr ⟨hserved, fun key heq => by cases heq⟩
        · rw [if_neg hzero]
          exact .inr ⟨hserved, fun key heq => by cases heq⟩

/-- As long as nothing is refused, the reader hands out just these bytes and then is at the
end. -/
structure Owes (r : ChunkReader) (s : ChunkStore) (rest : Bytes) : Prop where
  chunkSize_ne_zero : r.manifest.chunkSize ≠ 0
  ahead : ∃ t, s.LoadsAlike t ∧ r.ahead t = (rest, none)

/-- What comes of finding this under the key of the next chunk. -/
def inspect (r : ChunkReader) : Option Bytes → Except VaultError (Option Bytes)
  | none => .error (.corruptChunkSequence r.base (.missingChunk r.nextIndex r.manifest.chunks))
  | some chunk =>
    match r.lengthFault? chunk.length with
    | some fault => .error (.corruptChunkSequence r.base fault)
    | none => .ok (some chunk)

theorem nextChunk_of_more (hmore : r.nextIndex ≠ r.manifest.chunks) (s : ChunkStore) :
    r.nextChunk s = (match s.refusal? (.load (chunkKey r.base r.nextIndex)) with
      | some refusal => .error (.backendUnavailable refusal)
      | none => r.inspect s.contents[chunkKey r.base r.nextIndex]?,
      s.after (.load (chunkKey r.base r.nextIndex))) := by
  rw [nextChunk, if_neg hmore, ChunkStore.load_eq]
  cases s.refusal? (.load (chunkKey r.base r.nextIndex)) with
  | some refusal => rfl
  | none =>
    cases s.contents[chunkKey r.base r.nextIndex]? with
    | none => rfl
    | some chunk => cases hfault : r.lengthFault? chunk.length <;> simp only [inspect, hfault]

theorem nextChunk_of_last (hlast : r.nextIndex = r.manifest.chunks) (s : ChunkStore) :
    r.nextChunk s = (if r.delivered = r.manifest.length then .ok none
      else .error (.corruptChunkSequence r.base
        (.wrongTotal r.manifest.chunks r.delivered r.manifest.length)), s) := by
  rw [nextChunk, if_pos hlast]
  by_cases htotal : r.delivered = r.manifest.length
  · rw [if_neg (not_not.2 htotal), if_pos htotal]
  · rw [if_pos htotal, if_neg htotal]

/-- The load of the next chunk is refused, or it comes to the same as in a store that refuses
no load. -/
theorem nextChunk_agrees (r : ChunkReader) (halike : s.LoadsAlike t) :
    (∃ refusal, s.EndsRefused (r.nextChunk s).2 refusal ∧
      (r.nextChunk s).1 = .error (.backendUnavailable refusal) ∧
      (r.nextChunk s).2.LoadsAlike t) ∨
    (s.AllServed (r.nextChunk s).2 ∧ (r.nextChunk s).1 = (r.nextChunk t).1 ∧
      (r.nextChunk s).2.LoadsAlike (r.nextChunk t).2) := by
  by_cases hlast : r.nextIndex = r.manifest.chunks
  · rw [nextChunk_of_last hlast, nextChunk_of_last hlast]
    exact .inr ⟨.refl s, rfl, halike⟩
  · have hserved : t.refusal? (.load (chunkKey r.base r.nextIndex)) = none :=
      halike.serves t.tally _
    rw [nextChunk_of_more hlast, nextChunk_of_more hlast, hserved, halike.contents]
    have hcontents : t.contents = (s.after (.load (chunkKey r.base r.nextIndex))).contents := by
      rw [ChunkStore.contents_after_load, halike.contents]
    cases hrefusal : s.refusal? (.load (chunkKey r.base r.nextIndex)) with
    | some refusal =>
      exact .inl ⟨refusal, ChunkStore.endsRefused_after hrefusal, rfl, hcontents, halike.serves⟩
    | none =>
      refine .inr ⟨ChunkStore.allServed_after hrefusal, rfl, ?_, halike.serves.after _⟩
      rw [ChunkStore.contents_after_load, hcontents]

/-- Only the last chunk may be empty. -/
theorem nextIndex_take_nil {s' : ChunkStore} (hsize : r.manifest.chunkSize ≠ 0)
    (hnext : r.nextChunk s = (.ok (some []), s')) :
    (r.take []).nextIndex = (r.take []).manifest.chunks := by
  have hfault := lengthFault?_of_nextChunk hnext
  by_contra hlast
  have hwrong : 0 ≠ r.manifest.chunkSize.toNat :=
    fun hzero => hsize (UInt64.toNat_inj.1 hzero.symm)
  rw [List.length_nil, lengthFault?, if_pos (.inr ⟨hlast, hwrong⟩)] at hfault
  cases hfault

theorem refill_of_pending (hpending : r.pending ≠ []) (s : ChunkStore) :
    r.refill s = (.ok (), r, s) := by
  rw [refill, if_pos hpending]

theorem refill_of_pending_nil (hpending : r.pending = []) (s : ChunkStore) :
    r.refill s = match r.nextChunk s with
      | (.error error, s) => (.error error, r, s)
      | (.ok none, s) => (.ok (), r, s)
      | (.ok (some chunk), s) => (r.take chunk).refill s := by
  rw [refill, if_neg (not_not.2 hpending)]
  split <;> rename_i hnext <;> rw [hnext]

/-- Where nothing is ahead, the end is reached without a load. -/
theorem Owes.refill_of_last (howes : r.Owes s rest) (hpending : r.pending = [])
    (hlast : r.nextIndex = r.manifest.chunks) : r.refill s = (.ok (), r, s) ∧ rest = [] := by
  obtain ⟨-, t, -, hahead⟩ := howes
  have hthere := nextChunk_of_last hlast t
  rw [ahead_of_pending_nil hpending] at hahead
  by_cases htotal : r.delivered = r.manifest.length
  · rw [if_pos htotal] at hthere
    rw [beyond_of_end hthere] at hahead
    rw [refill_of_pending_nil hpending, nextChunk_of_last hlast, if_pos htotal]
    exact ⟨rfl, (congrArg Prod.fst hahead).symm⟩
  · rw [if_neg htotal] at hthere
    rw [beyond_of_error hthere] at hahead
    cases hahead

/-- A reader that owes bytes is refused its next load and stays as it was, or has bytes
pending unless it owes none. -/
theorem Owes.refill (howes : r.Owes s rest) :
    (∃ refusal t, r.refill s = (.error (.backendUnavailable refusal), r, t) ∧
      s.EndsRefused t refusal ∧ r.Owes t rest) ∨
    ∃ r' t, r.refill s = (.ok (), r', t) ∧ s.AllServed t ∧ r'.Owes t rest ∧
      (r'.pending = [] → rest = []) := by
  by_cases hpending : r.pending = []
  · obtain ⟨hsize, calm, halike, hahead⟩ := howes
    have hrefill := refill_of_pending_nil hpending s
    rcases nextChunk_agrees r halike with ⟨refusal, hends, hnext, halike'⟩ |
      ⟨hserved, hsame, halike'⟩
    · rw [show r.nextChunk s = (_, _) from Prod.ext hnext rfl] at hrefill
      exact .inl ⟨refusal, _, hrefill, hends, hsize, calm, halike', hahead⟩
    · right
      generalize r.nextChunk s = here at hrefill hserved hsame halike'
      obtain ⟨result, s'⟩ := here
      rcases hthere : r.nextChunk calm with ⟨error | _ | chunk, calm'⟩ <;>
        rw [hthere] at hsame halike' <;> cases hsame
      · rw [ahead_of_pending_nil hpending, beyond_of_error hthere] at hahead
        cases hahead
      · have hnothing := hahead
        rw [ahead_of_pending_nil hpending, beyond_of_end hthere] at hnothing
        rw [eq_of_nextChunk_end hthere] at halike'
        exact ⟨r, s', hrefill, hserved, ⟨hsize, calm, halike', hahead⟩,
          fun _ => (congrArg Prod.fst hnothing).symm⟩
      · rw [ahead_of_pending_nil hpending, beyond_of_chunk hthere] at hahead
        have howes' : (r.take chunk).Owes s' rest := ⟨hsize, calm', halike', hahead⟩
        by_cases hchunk : chunk = []
        · subst hchunk
          obtain ⟨hstays, hnothing⟩ :=
            howes'.refill_of_last rfl (nextIndex_take_nil hsize hthere)
          exact ⟨_, s', hrefill.trans hstays, hserved, howes', fun _ => hnothing⟩
        · have hpending' : (r.take chunk).pending ≠ [] := hchunk
          exact ⟨_, s', hrefill.trans (refill_of_pending hpending' s'), hserved, howes',
            fun hnil => absurd hnil hchunk⟩
  · exact .inr ⟨r, s, refill_of_pending hpending s, .refl s, howes,
      fun hnil => absurd hnil hpending⟩

theorem Owes.hand (howes : r.Owes s rest) (size : Nat) :
    ∃ left, rest = r.pending.take size ++ left ∧ (r.hand size).Owes s left := by
  obtain ⟨hchunkSize, calm, halike, hahead⟩ := howes
  rw [ahead_hand size] at hahead
  have hend : ((r.hand size).ahead calm).2 = none := congrArg Prod.snd hahead
  exact ⟨_, (congrArg Prod.fst hahead).symm, hchunkSize, calm, halike, Prod.ext rfl hend⟩

/-- A read of a reader that owes bytes fails for the reason of a refused load and changes
nothing of the reader, or takes bytes off their front; it takes none only at the end. -/
theorem Owes.read {size : Nat} (howes : r.Owes s rest) (hsize : 0 < size) :
    (∃ refusal t, r.read size s = (.error (.carrying .other (.backendUnavailable refusal)), r, t) ∧
      s.EndsRefused t refusal ∧ r.Owes t rest) ∨
    ∃ bytes left r' t, r.read size s = (.ok bytes, r', t) ∧ s.AllServed t ∧
      rest = bytes ++ left ∧ r'.Owes t left ∧ (bytes = [] → rest = []) := by
  rcases howes.refill with ⟨refusal, t, hrefill, hends⟩ | ⟨r', t, hrefill, hserved, howes', hend⟩
  · exact .inl ⟨refusal, t, read_of_refill_error hsize hrefill, hends⟩
  · obtain ⟨left, hsplit, hleft⟩ := howes'.hand size
    refine .inr ⟨_, left, _, t, read_of_refill_ok hsize hrefill, hserved, hsplit, hleft, ?_⟩
    intro hnil
    rcases List.take_eq_nil_iff.1 hnil with hzero | hpending
    · exact absurd hzero (Nat.ne_of_gt hsize)
    · exact hend hpending

/-! ### Reading on -/

/-- Reads one after the other, of these sizes, and goes on after a read that fails. -/
def readEach : List Nat → ChunkReader → ChunkStore →
    List (Except IoError Bytes) × ChunkReader × ChunkStore
  | [], r, s => ([], r, s)
  | size :: sizes, r, s =>
    let (outcome, r, s) := r.read size s
    let (outcomes, r, s) := readEach sizes r s
    (outcome :: outcomes, r, s)

def handedOut (outcomes : List (Except IoError Bytes)) : Bytes :=
  (outcomes.filterMap Except.toOption).flatten

theorem handedOut_append (outcomes more : List (Except IoError Bytes)) :
    handedOut (outcomes ++ more) = handedOut outcomes ++ handedOut more := by
  rw [handedOut, handedOut, handedOut, List.filterMap_append, List.flatten_append]

@[simp]
theorem handedOut_singleton_ok (bytes : Bytes) : handedOut [.ok bytes] = bytes :=
  List.append_nil bytes

@[simp]
theorem handedOut_singleton_error (failure : IoError) : handedOut [.error failure] = [] := rfl

/-- How many of the reads asked for bytes and succeeded. -/
def successes (sizes : List Nat) (outcomes : List (Except IoError Bytes)) : Nat :=
  (sizes.zip outcomes).countP fun (size, outcome) => 0 < size && outcome.isOk

theorem read_zero (r : ChunkReader) (s : ChunkStore) : r.read 0 s = (.ok [], r, s) :=
  if_pos rfl

section ReadEach

variable {r' : ChunkReader} {s' : ChunkStore} {size : Nat} {outcome : Except IoError Bytes}

theorem readEach_cons (hread : r.read size s = (outcome, r', s')) (sizes : List Nat) :
    readEach (size :: sizes) r s =
      (outcome :: (readEach sizes r' s').1, (readEach sizes r' s').2) := by
  rw [readEach, hread]

theorem handedOut_ok (bytes : Bytes) (outcomes : List (Except IoError Bytes)) :
    handedOut (.ok bytes :: outcomes) = bytes ++ handedOut outcomes := rfl

theorem successes_zero (outcome : Except IoError Bytes) (sizes : List Nat)
    (outcomes : List (Except IoError Bytes)) :
    successes (0 :: sizes) (outcome :: outcomes) = successes sizes outcomes := rfl

theorem successes_error (size : Nat) (failure : IoError) (sizes : List Nat)
    (outcomes : List (Except IoError Bytes)) :
    successes (size :: sizes) (.error failure :: outcomes) = successes sizes outcomes := by
  rw [successes, List.zip_cons_cons, List.countP_cons_of_neg]
  · rfl
  · simp [Except.isOk, Except.toBool]

theorem successes_ok (hsize : 0 < size) (bytes : Bytes) (sizes : List Nat)
    (outcomes : List (Except IoError Bytes)) :
    successes (size :: sizes) (.ok bytes :: outcomes) = successes sizes outcomes + 1 := by
  rw [successes, List.zip_cons_cons, List.countP_cons_of_pos]
  · rfl
  · simp [hsize, Except.isOk, Except.toBool]

end ReadEach

/-- However many loads were refused on the way, what was handed out and what is owed are
together the value, and every read that asks for bytes and succeeds brings the end nearer. -/
theorem Owes.readEach (howes : r.Owes s rest) (sizes : List Nat) :
    ∃ left, rest = handedOut (readEach sizes r s).1 ++ left ∧
      (ChunkReader.readEach sizes r s).2.1.Owes (ChunkReader.readEach sizes r s).2.2 left ∧
      (rest.length ≤ successes sizes (ChunkReader.readEach sizes r s).1 → left = []) := by
  induction sizes generalizing r s rest with
  | nil => exact ⟨rest, rfl, howes, fun hle => List.length_eq_zero_iff.1 (Nat.le_zero.1 hle)⟩
  | cons size sizes ih =>
    rcases Nat.eq_zero_or_pos size with rfl | hsize
    · rw [readEach_cons (read_zero r s), successes_zero]
      exact ih howes
    · rcases howes.read hsize with ⟨refusal, t, hread, -, howes'⟩ |
        ⟨bytes, left₁, r', t, hread, -, hsplit₁, howes', hend⟩
      · rw [readEach_cons hread, successes_error]
        exact ih howes'
      · obtain ⟨left, hsplit, hleft, hdone⟩ := ih howes'
        rw [readEach_cons hread, successes_ok hsize, handedOut_ok]
        refine ⟨left, ?_, hleft, fun hle => ?_⟩
        · rw [hsplit₁, hsplit, List.append_assoc]
        · by_cases hbytes : bytes = []
          · rw [hend hbytes, hbytes, List.nil_append] at hsplit₁
            rw [← hsplit₁] at hsplit
            exact (List.append_eq_nil_iff.1 hsplit.symm).2
          · have hpos : 0 < bytes.length := List.length_pos_iff.2 hbytes
            rw [hsplit₁, List.length_append] at hle
            exact hdone (by omega)

/-! ### A value that is there -/

/-- What the next read of a reader comes to that has handed out these bytes of the value. -/
structure ReadsOn (value handed : Bytes) (r : ChunkReader) (s : ChunkStore) : Prop where
  /-- What was handed out is the beginning of the value. -/
  begins : handed <+: value
  /-- A read for no bytes changes nothing. -/
  empty : r.read 0 s = (.ok [], r, s)
  /-- A read for bytes fails for the reason of a refused load, and the reader stays as it was;
  or no load was refused, and the bytes are those that follow, none only at the end. -/
  next : ∀ size, 0 < size →
    (∃ refusal t, r.read size s = (.error (.carrying .other (.backendUnavailable refusal)), r, t) ∧
      s.EndsRefused t refusal) ∨
    ∃ bytes r' t, r.read size s = (.ok bytes, r', t) ∧ s.AllServed t ∧
      handed ++ bytes <+: value ∧ (bytes = [] → handed = value)

theorem Owes.readsOn {handed : Bytes} (howes : r.Owes s rest) (hsplit : value = handed ++ rest) :
    ReadsOn value handed r s where
  begins := ⟨rest, hsplit.symm⟩
  empty := read_zero r s
  next size hsize := by
    rcases howes.read hsize with ⟨refusal, t, hread, hends, -⟩ |
      ⟨bytes, left, r', t, hread, hserved, hsplit', -, hend⟩
    · exact .inl ⟨refusal, t, hread, hends⟩
    · refine .inr ⟨bytes, r', t, hread, hserved, ⟨left, ?_⟩, fun hnil => ?_⟩
      · rw [hsplit, hsplit', List.append_assoc]
      · rw [hsplit, hend hnil, List.append_nil]

/-- A value that is there can be opened unless the load of its manifest is refused, and its
reader owes all of it. -/
theorem create_of_readsAs (hreads : s.contents.ReadsAs base (.complete value)) :
    (∃ refusal, s.refusal? (.load base) = some refusal ∧
      create base s = (.error (.backendUnavailable refusal), s.after (.load base))) ∨
    ∃ r, s.refusal? (.load base) = none ∧ create base s = (.ok r, s.after (.load base)) ∧
      r.Owes (s.after (.load base)) value := by
  cases hreads with
  | @complete manifest chunks hrecords hchunks hall htotal =>
    cases hrefusal : s.refusal? (.load base) with
    | some refusal =>
      refine .inl ⟨refusal, rfl, ?_⟩
      rw [create, ChunkStore.loadManifest, ChunkStore.load_eq, hrefusal]
    | none =>
      refine .inr ⟨past base manifest [], rfl, create_of_served hrefusal hrecords,
        hrecords.chunkSize_ne_zero, ?_⟩
      have hloads : (s.setPlan FaultPlan.none).ServesLoads := fun _ _ => rfl
      have hcontents : (s.setPlan FaultPlan.none).contents =
          (s.after (.load base)).contents := by
        rw [ChunkStore.contents_after_load]
        rfl
      obtain ⟨t, -, hbeyond⟩ := beyond_of_beginsWith hloads hchunks
      have hnext := nextChunk_past_all base t hall
      rw [List.length_flatten, htotal, UInt64.ofNat_toNat, if_pos rfl] at hnext
      rw [beyond_of_end hnext, List.append_nil] at hbeyond
      exact ⟨_, ⟨hcontents, hloads⟩, (ahead_of_pending_nil rfl _).trans hbeyond⟩

/-- Whatever loads are refused: opening tells of the refusal, or finds a value missing only
after looking for both its manifest and its first chunk.  A value that is there and is opened
is handed out without a gap or a repetition to whoever reads on after every failure, whole
after as many successful reads as it has bytes, and its end is never found before. -/
theorem readsOn_of_refusals (base : String) (s : ChunkStore) :
    ((∃ refusal, s.EndsRefused (create base s).2 refusal ∧
        (create base s).1 = .error (.backendUnavailable refusal)) ∨
      (s.AllServed (create base s).2 ∧
        ∀ key, (create base s).1 = .error (.backendUnavailable (.notFound key)) →
          key = base ∧ s.contents[base]? = none ∧ s.contents[chunkKey base 0]? = none ∧
          (create base s).2 = (s.after (.load base)).after (.load (chunkKey base 0)))) ∧
    ∀ value, s.contents.ReadsAs base (.complete value) →
      (s.refusal? (.load base) = none → ∃ r, create base s = (.ok r, s.after (.load base))) ∧
      ∀ r t, create base s = (.ok r, t) → ∀ sizes,
        ReadsOn value (handedOut (ChunkReader.readEach sizes r t).1)
          (ChunkReader.readEach sizes r t).2.1 (ChunkReader.readEach sizes r t).2.2 ∧
        (value.length ≤ successes sizes (ChunkReader.readEach sizes r t).1 →
          handedOut (ChunkReader.readEach sizes r t).1 = value) := by
  refine ⟨create_answers base s, fun value hreads => ?_⟩
  rcases create_of_readsAs hreads with ⟨refusal, hrefused, hcreate⟩ |
    ⟨r₀, hserved, hcreate, howes⟩
  · refine ⟨fun hserved => ?_, fun r t hopen => ?_⟩
    · rw [hrefused] at hserved
      cases hserved
    · rw [hcreate] at hopen
      cases hopen
  · refine ⟨fun _ => ⟨r₀, hcreate⟩, fun r t hopen sizes => ?_⟩
    rw [hcreate] at hopen
    cases hopen
    obtain ⟨left, hsplit, howes', hdone⟩ := howes.readEach sizes
    refine ⟨howes'.readsOn hsplit, fun hle => ?_⟩
    rw [hdone hle, List.append_nil] at hsplit
    exact hsplit.symm

def flakyStore : ChunkStore where
  contents := (((∅ : Contents).insert "b/0" [1, 2]).insert "b/1" [3]).insert "b"
    (Manifest.mk 2 3 2).encode
  plan := fun tally call =>
    match call with
    | .load _ => if tally.loads % 2 = 1 then some (.io (.plain .interrupted)) else none
    | _ => none

theorem readsAs_flakyStore : flakyStore.contents.ReadsAs "b" (.complete [1, 2, 3]) := by
  have hfirst : flakyStore.contents.HoldsChunk "b" ⟨2, 3, 2⟩ 0 [1, 2] :=
    ⟨by decide +kernel, by decide⟩
  have hsecond : flakyStore.contents.HoldsChunk "b" ⟨2, 3, 2⟩ 1 [3] :=
    ⟨by decide +kernel, by decide⟩
  have hchunks : flakyStore.contents.BeginsWith "b" ⟨2, 3, 2⟩ [[1, 2], [3]] := by
    refine ⟨by decide, fun index hindex => ?_⟩
    match index, hindex with
    | 0, _ => exact hfirst
    | 1, _ => exact hsecond
  exact .complete ⟨⟨_, Std.ExtTreeMap.getElem?_insert_self, Manifest.decode_encode _⟩, by decide⟩
    hchunks rfl rfl

theorem create_flakyStore : create "b" flakyStore =
    (.ok ⟨"b", ⟨2, 3, 2⟩, 0, [], 0⟩, flakyStore.after (.load "b")) :=
  create_of_served rfl ⟨⟨_, Std.ExtTreeMap.getElem?_insert_self, Manifest.decode_encode _⟩,
    by decide⟩

/-- Every other load is refused on the way, and one read asks for nothing; still three bytes
are handed out, one read for each of the two chunks and one more for the rest of the first. -/
theorem readsOn_of_refusals_flakyStore :
    flakyStore.contents.ReadsAs "b" (.complete [1, 2, 3]) ∧
    ∃ r t, create "b" flakyStore = (.ok r, t) ∧
      handedOut (ChunkReader.readEach [1, 0, 1, 1, 5, 5, 5] r t).1 = [1, 2, 3] := by
  obtain ⟨hopens, hreads⟩ := (readsOn_of_refusals "b" flakyStore).2 _ readsAs_flakyStore
  obtain ⟨-, hwhole⟩ := hreads _ _ create_flakyStore [1, 0, 1, 1, 5, 5, 5]
  exact ⟨readsAs_flakyStore, _, _, create_flakyStore, hwhole (by decide +kernel)⟩

end ChunkReader

end ContentVault
