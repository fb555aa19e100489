import ContentVault.Proofs.InterruptedWrite

/-!
# Writers that have failed or finished

A writer that was refused a call has failed for good, and one that has finished stays
finished.  Either turns down all that is asked of it from then on, for a reason that tells
the two apart, and asks nothing of its store any more, not even when it is given up.  A writer
that is still writing is finished by giving it up.
-/

namespace ContentVault

inductive WriterInput where
  | write (data : Bytes)
  /-- The bytes are written to it as the end of a byte stream. -/
  | stream (data : Bytes)
  | flush
  deriving DecidableEq, Repr

inductive WriterCall where
  | feed (input : WriterInput)
  | finish
  deriving DecidableEq, Repr

inductive WriterReply where
  | written (result : Except VaultError Unit)
  | streamed (result : Except IoError Nat)
  | flushed (result : Except IoError Unit)
  | finished (result : Except VaultError Manifest)

def WriterInput.data : WriterInput → Bytes
  | .write data => data
  | .stream data => data
  | .flush => []

def WriterInput.taken : WriterInput → WriterReply
  | .write _ => .written (.ok ())
  | .stream data => .streamed (.ok data.length)
  | .flush => .flushed (.ok ())

def WriterInput.allData (inputs : List WriterInput) : Bytes :=
  inputs.flatMap data

namespace WriterCall

def data : WriterCall → Bytes
  | .feed input => input.data
  | .finish => []

/-- The answer of a writer that fails for this reason.  Flushing never fails. -/
def refused (error : VaultError) : WriterCall → WriterReply
  | .feed (.write _) => .written (.error error)
  | .feed (.stream _) => .streamed (.error error.toStream)
  | .feed .flush => .flushed (.ok ())
  | .finish => .finished (.error error)

def perform : WriterCall → ChunkWriter → ChunkStore → WriterReply × ChunkWriter × ChunkStore
  | .feed (.write data), w, s =>
    let (result, w, s) := w.write data s
    (.written result, w, s)
  | .feed (.stream data), w, s =>
    let (result, w, s) := w.writeStream data s
    (.streamed result, w, s)
  | .feed .flush, w, s =>
    let (result, w, s) := w.flush s
    (.flushed result, w, s)
  | .finish, w, s =>
    let (result, w, s) := w.finish s
    (.finished result, w, s)

/-- What calls come to, made one after the other whatever the answers are. -/
def performAll : List WriterCall → ChunkWriter → ChunkStore →
    List WriterReply × ChunkWriter × ChunkStore
  | [], w, s => ([], w, s)
  | call :: calls, w, s =>
    let (reply, w, s) := call.perform w s
    let (replies, w, s) := performAll calls w s
    (reply :: replies, w, s)

variable {w w' : ChunkWriter} {s s' t : ChunkStore}

theorem performAll_cons {call : WriterCall} {reply : WriterReply}
    (hperform : call.perform w s = (reply, w', s')) (calls : List WriterCall) :
    performAll (call :: calls) w s =
      (reply :: (performAll calls w' s').1, (performAll calls w' s').2) := by
  rw [performAll, hperform]

theorem performAll_append (calls more : List WriterCall) (w : ChunkWriter) (s : ChunkStore) :
    performAll (calls ++ more) w s =
      ((performAll calls w s).1 ++
          (performAll more (performAll calls w s).2.1 (performAll calls w s).2.2).1,
        (performAll more (performAll calls w s).2.1 (performAll calls w s).2.2).2) := by
  induction calls generalizing w s with
  | nil => rfl
  | cons call calls ih =>
    rw [List.cons_append, performAll_cons rfl, performAll_cons rfl, ih]
    rfl

section Bytes

variable {data : Bytes} {input : WriterInput}

theorem perform_of_write_ok (hinput : input = .write data ∨ input = .stream data)
    (hwrite : w.write data s = (.ok (), w', s')) :
    (WriterCall.feed input).perform w s = (input.taken, w', s') := by
  rcases hinput with rfl | rfl
  · rw [perform, hwrite]
    rfl
  · rw [perform, ChunkWriter.writeStream, hwrite]
    rfl

theorem perform_of_write_error {error : VaultError}
    (hinput : input = .write data ∨ input = .stream data)
    (hwrite : w.write data s = (.error error, w', s')) :
    (WriterCall.feed input).perform w s = (refused error (.feed input), w', s') := by
  rcases hinput with rfl | rfl
  · rw [perform, hwrite]
    rfl
  · rw [perform, ChunkWriter.writeStream, hwrite]
    rfl

end Bytes

/-! ### Writers that do not write any more -/

theorem perform_of_not_writing {error : VaultError} (hensure : w.ensureWriting = .error error)
    (call : WriterCall) (s : ChunkStore) : call.perform w s = (call.refused error, w, s) := by
  have hwrite (data : Bytes) : w.write data s = (.error error, w, s) := by
    rw [ChunkWriter.write, hensure]
  cases call with
  | feed input =>
    cases input with
    | write data => exact perform_of_write_error (.inl rfl) (hwrite data)
    | stream data => exact perform_of_write_error (.inr rfl) (hwrite data)
    | flush => rfl
  | finish =>
    have hfinish : w.finish s = (.error error, w, s) := by
      rw [ChunkWriter.finish, hensure]
    rw [perform, hfinish]
    rfl

/-- Nothing that is asked of such a writer changes it or its store. -/
theorem performAll_of_not_writing {error : VaultError} (hensure : w.ensureWriting = .error error)
    (calls : List WriterCall) (s : ChunkStore) :
    performAll calls w s = (calls.map (refused error), w, s) := by
  induction calls with
  | nil => rfl
  | cons call calls ih =>
    rw [performAll_cons (perform_of_not_writing hensure call s), ih]
    rfl

theorem drop_of_not_writing (hwriting : w.state ≠ .writing) (s : ChunkStore) : w.drop s = s := by
  obtain ⟨error, hfinish⟩ := ChunkWriter.finish_of_not_writing hwriting s
  rw [ChunkWriter.drop_eq, hfinish]

end WriterCall

namespace ChunkWriter

open WriterCall (perform performAll)

/-- A writer that was refused nothing since it was created has accepted these bytes, and its
store holds their full chunks. -/
structure InProgress (base : String) (chunkSize : ChunkSize) (replaced : UInt64) (s₀ : ChunkStore)
    (accepted : Bytes) (w : ChunkWriter) (s : ChunkStore) : Prop where
  writer : w = writing base chunkSize replaced accepted
  stored : s = s₀.afterAll (chunkCalls base chunkSize.toNat accepted
    (List.range (accepted.length / chunkSize.toNat)))
  served : s₀.AllServed s

/-- What one call to such a writer comes to. -/
inductive Turn (base : String) (chunkSize : ChunkSize) (replaced : UInt64) (s₀ : ChunkStore)
    (accepted : Bytes) : WriterCall → WriterReply × ChunkWriter × ChunkStore → Prop where
  | taken {input : WriterInput} (w : ChunkWriter) (s : ChunkStore)
      (hprogress : InProgress base chunkSize replaced s₀ (accepted ++ input.data) w s) :
      Turn base chunkSize replaced s₀ accepted (.feed input) (input.taken, w, s)
  | failed {call : WriterCall} {i : Nat} {refusal : StorageError} (w : ChunkWriter)
      (t : ChunkStore) (hstate : w.state = .failed (.ofNat i))
      (hcut : CutShort base chunkSize (accepted ++ call.data) i refusal s₀ t) :
      Turn base chunkSize replaced s₀ accepted call
        (call.refused (.chunkCommitFailed (.ofNat i) refusal), w, t)
  | finished (manifest : Manifest) (w : ChunkWriter) (u : ChunkStore) (surplus : List Nat)
      (hstate : w.state = .finished) (hserved : s₀.AllServed u) :
      Turn base chunkSize replaced s₀ accepted .finish
        (.finished (.ok manifest), w, u.afterAll (removeCalls base surplus))

variable {base : String} {chunkSize : ChunkSize} {replaced : UInt64} {accepted : Bytes}
  {w : ChunkWriter} {s s₀ : ChunkStore}

theorem div_le_chunkCount (size length : Nat) : length / size ≤ chunkCount size length := by
  have hle : length / size ≤ (length + size - 1) / size := by
    rcases Nat.eq_zero_or_pos size with rfl | hpos
    · simp
    · exact Nat.div_le_div_right (by omega)
  exact Nat.le_trans hle (Nat.le_max_right _ _)

/-- Of the chunks that bytes fill, the first one that is refused cuts the value short. -/
theorem InProgress.write (hprogress : InProgress base chunkSize replaced s₀ accepted w s)
    (data : Bytes) :
    (∃ w' s', w.write data s = (.ok (), w', s') ∧
      InProgress base chunkSize replaced s₀ (accepted ++ data) w' s') ∨
    ∃ i refusal failed t, w.write data s = (.error (.chunkCommitFailed (.ofNat i) refusal),
        failed, t) ∧ failed.state = .failed (.ofNat i) ∧
      CutShort base chunkSize (accepted ++ data) i refusal s₀ t := by
  obtain ⟨rfl, hstored, hserved⟩ := hprogress
  have hafter {last : Nat} (hle : accepted.length / chunkSize.toNat ≤ last) :
      s.afterAll (chunkCalls base chunkSize.toNat (accepted ++ data)
          (List.range' (accepted.length / chunkSize.toNat)
            (last - accepted.length / chunkSize.toNat))) =
        s₀.afterAll (chunkCalls base chunkSize.toNat (accepted ++ data) (List.range last)) := by
    rw [hstored, ← ChunkStore.afterAll_append, chunkCalls_append_of_le base accepted data hle]
  have hfills := write_writing base chunkSize replaced accepted data s
  generalize (writing base chunkSize replaced accepted).write data s = outcome at hfills
  cases hfills with
  | taken t hfilled hserved' =>
    have hle := div_length_le_append accepted data chunkSize.toNat
    exact .inl ⟨_, t, rfl, rfl, hfilled.trans (hafter hle), hserved.trans hserved'⟩
  | @refused i refusal failed u hfirst hlast hbefore hserved' hrefused hfailed =>
    have hi : i < chunkCount chunkSize.toNat (accepted ++ data).length :=
      Nat.lt_of_lt_of_le hlast (div_le_chunkCount _ _)
    exact .inr ⟨i, refusal, failed, _, rfl, hfailed, _, u, hbefore.trans (hafter hfirst),
      hserved.trans hserved', hrefused, rfl, fun _ => .inl ⟨hi, rfl⟩⟩

/-- The chunk or the manifest that is refused when finishing cuts the value short. -/
theorem InProgress.finish (hprogress : InProgress base chunkSize replaced s₀ accepted w s) :
    (∃ i refusal failed t, w.finish s = (.error (.chunkCommitFailed (.ofNat i) refusal),
        failed, t) ∧ failed.state = .failed (.ofNat i) ∧
      CutShort base chunkSize accepted i refusal s₀ t) ∨
    ∃ manifest finished u surplus, w.finish s =
        (.ok manifest, finished, u.afterAll (removeCalls base surplus)) ∧
      finished.state = .finished ∧ s₀.AllServed u := by
  obtain ⟨rfl, hstored, hserved⟩ := hprogress
  have hafter {last : Nat} (hle : accepted.length / chunkSize.toNat ≤ last) :
      s.afterAll (chunkCalls base chunkSize.toNat accepted
          (List.range' (accepted.length / chunkSize.toNat)
            (last - accepted.length / chunkSize.toNat))) =
        s₀.afterAll (chunkCalls base chunkSize.toNat accepted (List.range last)) := by
    have hcalls := chunkCalls_append_of_le base accepted [] hle
    rw [List.append_nil] at hcalls
    rw [hstored, ← ChunkStore.afterAll_append, hcalls]
  obtain ⟨count, hfull, hcount, hcompletes⟩ :=
    finish_writing_completes base chunkSize replaced accepted s
  generalize (writing base chunkSize replaced accepted).finish s = outcome at hcompletes
  cases hcompletes with
  | @refused i refusal call failed u hfirst hcall hbefore hserved' hrefused hfailed =>
    refine .inl ⟨i, refusal, failed, _, rfl, hfailed, call, u, hbefore.trans (hafter hfirst),
      hserved.trans hserved', hrefused, rfl, fun hfits => ?_⟩
    rw [manifest_complete_writing base chunkSize replaced hfits, hcount hfits] at hcall
    exact hcall
  | closed u hfilled hserved' hmanifest =>
    refine .inr ⟨_, _, u.after _, _, rfl, ?_, ?_⟩
    · rfl
    · exact (hserved.trans hserved').trans (ChunkStore.allServed_after hmanifest)

/-- Every call to a writer that was refused nothing is such a turn. -/
theorem InProgress.perform (hprogress : InProgress base chunkSize replaced s₀ accepted w s)
    (call : WriterCall) : Turn base chunkSize replaced s₀ accepted call (call.perform w s) := by
  have hbytes (input : WriterInput) (hinput : input = .write input.data ∨
      input = .stream input.data) : Turn base chunkSize replaced s₀ accepted (.feed input)
        ((WriterCall.feed input).perform w s) := by
    rcases hprogress.write input.data with ⟨w', s', hwrite, hprogress'⟩ |
      ⟨i, refusal, failed, t, hwrite, hstate, hcut⟩
    · rw [WriterCall.perform_of_write_ok hinput hwrite]
      exact .taken w' s' hprogress'
    · rw [WriterCall.perform_of_write_error hinput hwrite]
      exact .failed failed t hstate hcut
  cases call with
  | feed input =>
    cases input with
    | write data => exact hbytes (.write data) (.inl rfl)
    | stream data => exact hbytes (.stream data) (.inr rfl)
    | flush =>
      have hflush :
          InProgress base chunkSize replaced s₀ (accepted ++ WriterInput.flush.data) w s := by
        rw [WriterInput.data, List.append_nil]
        exact hprogress
      exact .taken w s hflush
  | finish =>
    rw [WriterCall.perform]
    rcases hprogress.finish with ⟨i, refusal, failed, t, hfinish, hstate, hcut⟩ |
      ⟨manifest, finished, u, surplus, hfinish, hstate, hserved⟩
    · rw [hfinish]
      rw [← List.append_nil accepted] at hcut
      exact .failed failed t hstate hcut
    · rw [hfinish]
      exact .finished manifest finished u surplus hstate hserved

/-- A writer takes all it is given, or up to one call that ends it. -/
theorem InProgress.performAll (hprogress : InProgress base chunkSize replaced s₀ accepted w s)
    (calls : List WriterCall) :
    ∃ inputs rest w' s', calls = List.map WriterCall.feed inputs ++ rest ∧
      WriterCall.performAll (inputs.map .feed) w s = (inputs.map WriterInput.taken, w', s') ∧
      InProgress base chunkSize replaced s₀ (accepted ++ WriterInput.allData inputs) w' s' ∧
      ∀ call after, rest = call :: after → (call.perform w' s').2.1.state ≠ .writing := by
  induction calls generalizing accepted w s with
  | nil =>
    refine ⟨[], [], w, s, rfl, rfl, ?_, fun call after heq => by cases heq⟩
    rw [WriterInput.allData, List.flatMap_nil, List.append_nil]
    exact hprogress
  | cons call calls ih =>
    have hturn := hprogress.perform call
    generalize hperform : call.perform w s = outcome at hturn
    cases hturn with
    | @taken input w' s' hprogress' =>
      obtain ⟨inputs, rest, w'', s'', rfl, hinputs, hprogress'', hrest⟩ := ih hprogress'
      rw [List.append_assoc] at hprogress''
      refine ⟨input :: inputs, rest, w'', s'', rfl, ?_, hprogress'', hrest⟩
      rw [List.map_cons, WriterCall.performAll_cons hperform, hinputs]
      rfl
    | failed failed t hstate hcut =>
      refine ⟨[], call :: calls, w, s, rfl, rfl, ?_, ?_⟩
      · rw [WriterInput.allData, List.flatMap_nil, List.append_nil]
        exact hprogress
      · intro call' after heq
        cases heq
        rw [hperform, hstate]
        exact WriterState.noConfusion
    | finished manifest finished u surplus hstate hserved =>
      refine ⟨[], .finish :: calls, w, s, rfl, rfl, ?_, ?_⟩
      · rw [WriterInput.allData, List.flatMap_nil, List.append_nil]
        exact hprogress
      · intro call' after heq
        cases heq
        rw [hperform, hstate]
        exact WriterState.noConfusion

/-- What has become of a writer that was created for a store as it was before, after these
calls: their answers, the writer and its store. -/
inductive Course (base : String) (chunkSize : ChunkSize) (before : Contents) (w₀ : ChunkWriter)
    (s₀ : ChunkStore) (calls : List WriterCall) :
    List WriterReply × ChunkWriter × ChunkStore → Prop where
  /-- It has taken all it was given, nothing was refused, and it can go on. -/
  | writing (inputs : List WriterInput) (w : ChunkWriter) (t : ChunkStore)
      (hcalls : calls = inputs.map .feed) (hstate : w.state = .writing)
      (hserved : s₀.AllServed t) :
      Course base chunkSize before w₀ s₀ calls (inputs.map WriterInput.taken, w, t)
  /-- The chunk at `i`, or the manifest behind so many chunks, was refused during one call.
  The store is as that refusal has left it, and stays so when the writer is given up. -/
  | failed (inputs : List WriterInput) (call : WriterCall) (after : List WriterCall) (i : Nat)
      (refusal : StorageError) (w : ChunkWriter) (t : ChunkStore)
      (hcalls : calls = inputs.map .feed ++ call :: after) (hstate : w.state = .failed (.ofNat i))
      (hcut : CutShort base chunkSize (WriterInput.allData inputs ++ call.data) i refusal s₀ t)
      (hleft : (WriterInput.allData inputs ++ call.data).length < UInt64.size →
        Unfinished base chunkSize.toNat (WriterInput.allData inputs ++ call.data) i before
          t.contents)
      (hstays : (performAll (inputs.map .feed ++ [call]) w₀ s₀).2.2 = t) (hdrop : w.drop t = t) :
      Course base chunkSize before w₀ s₀ calls
        (inputs.map WriterInput.taken ++ call.refused (.chunkCommitFailed (.ofNat i) refusal) ::
          after.map (WriterCall.refused (.writerFailed (.ofNat i))), w, t)
  /-- It was finished, and nothing but the removal of surplus chunks may have been refused.
  The store is as finishing has left it, and stays so when the writer is given up. -/
  | finished (inputs : List WriterInput) (after : List WriterCall) (manifest : Manifest)
      (w : ChunkWriter) (u : ChunkStore) (surplus : List Nat) (t : ChunkStore)
      (hcalls : calls = inputs.map .feed ++ .finish :: after) (hstate : w.state = .finished)
      (hserved : s₀.AllServed u) (hremoved : t = u.afterAll (removeCalls base surplus))
      (hstays : (performAll (inputs.map .feed ++ [.finish]) w₀ s₀).2.2 = t)
      (hdrop : w.drop t = t) :
      Course base chunkSize before w₀ s₀ calls
        (inputs.map WriterInput.taken ++ .finished (.ok manifest) ::
          after.map (WriterCall.refused
            (.io (.described .brokenPipe "chunk writer already finished"))), w, t)

/-- Giving a writer up leaves the store as finishing it would. -/
theorem drop_performAll (calls : List WriterCall) (w : ChunkWriter) (s : ChunkStore) :
    (performAll calls w s).2.1.drop (performAll calls w s).2.2 =
      (performAll (calls ++ [.finish]) w s).2.2 := by
  rw [WriterCall.performAll_append, drop_eq]
  rfl

/-- Whatever a writer is asked and whatever its store refuses: a refused call ends the writer
and is told with the index it was for, and a writer that has failed or finished answers
nothing else any more and leaves the store alone. -/
theorem course_of_create {s : ChunkStore} {w₀ : ChunkWriter}
    (hcreate : create base chunkSize s = (.ok w₀, s₀)) (calls : List WriterCall) :
    Course base chunkSize s.contents w₀ s₀ calls (performAll calls w₀ s₀) ∧
      (performAll calls w₀ s₀).2.1.drop (performAll calls w₀ s₀).2.2 =
        (performAll (calls ++ [.finish]) w₀ s₀).2.2 := by
  refine ⟨?_, drop_performAll calls w₀ s₀⟩
  obtain ⟨⟨replaced, hw₀⟩, hbegun⟩ := eq_of_create_ok hcreate
  have hstart : InProgress base chunkSize replaced s₀ [] w₀ s₀ := by
    refine ⟨hw₀.trans writing_nil.symm, ?_, .refl s₀⟩
    rw [List.length_nil, Nat.zero_div]
    rfl
  obtain ⟨inputs, rest, w, t, rfl, hinputs, hprogress, hends⟩ := hstart.performAll calls
  rw [List.nil_append] at hprogress
  rw [WriterCall.performAll_append, hinputs]
  cases rest with
  | nil =>
    simp only [WriterCall.performAll, List.append_nil]
    refine .writing inputs w t rfl ?_ hprogress.served
    rw [hprogress.writer]
    rfl
  | cons call after =>
    have hended := hends call after rfl
    have hturn := hprogress.perform call
    have hlast : (performAll (List.map WriterCall.feed inputs ++ [call]) w₀ s₀).2.2 =
        (call.perform w t).2.2 := by
      rw [WriterCall.performAll_append, hinputs]
      rfl
    generalize hperform : call.perform w t = outcome at hturn hended hlast
    cases hturn with
    | @taken input w' s' hprogress' =>
      rw [hprogress'.writer] at hended
      exact absurd rfl hended
    | @failed call i refusal failed t' hstate hcut =>
      have hensure : failed.ensureWriting = .error (.writerFailed (.ofNat i)) := by
        rw [ensureWriting, hstate]
      rw [WriterCall.performAll_cons hperform, WriterCall.performAll_of_not_writing hensure]
      exact .failed inputs call after i refusal failed t' rfl hstate hcut
        (hcut.unfinished hbegun) hlast (WriterCall.drop_of_not_writing hended t')
    | finished manifest finished u surplus hstate hserved =>
      have hensure : finished.ensureWriting =
          .error (.io (.described .brokenPipe "chunk writer already finished")) := by
        rw [ensureWriting, hstate]
      rw [WriterCall.performAll_cons hperform, WriterCall.performAll_of_not_writing hensure]
      exact .finished inputs after manifest finished u surplus _ rfl hstate hserved rfl hlast
        (WriterCall.drop_of_not_writing hended _)

/-- A store that refuses to store one chunk, of which it holds an older one. -/
def fullStore : ChunkStore where
  contents := (∅ : Contents).insert "k/1" [9]
  plan := fun _ call =>
    match call with
    | .store "k/1" _ => some .engine
    | _ => none

/-- Five bytes in two inputs, and what is asked once the second chunk was refused. -/
def blockedCalls : List WriterCall :=
  [.feed (.write [1, 2, 3]), .feed (.stream [4, 5]), .feed .flush, .finish, .feed (.write [6])]

/-- The second chunk is refused while the end of a stream is written.  What is asked
afterwards is turned down, and the older chunk is still there. -/
theorem course_of_create_fullStore :
    ∃ w₀ s₀, create "k" ⟨2, by decide⟩ fullStore = (.ok w₀, s₀) ∧
      Course "k" ⟨2, by decide⟩ fullStore.contents w₀ s₀ blockedCalls
        (performAll blockedCalls w₀ s₀) ∧
      (performAll blockedCalls w₀ s₀).1 = [.written (.ok ()),
        .streamed (.error (.carrying .other (.chunkCommitFailed 1 .engine))), .flushed (.ok ()),
        .finished (.error (.writerFailed 1)), .written (.error (.writerFailed 1))] ∧
      (performAll blockedCalls w₀ s₀).2.2.contents["k/1"]? = some [9] := by
  refine ⟨⟨"k", ⟨2, by decide⟩, .empty, 0, 0, 0, .writing⟩,
    fullStore.afterAll [.load "k", .remove "k"], rfl, ?_, ?_, ?_⟩
  · exact (course_of_create rfl blockedCalls).1
  · rfl
  · decide +kernel

end ChunkWriter

end ContentVault
