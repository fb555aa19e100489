import ContentVault.Proofs.WriterInvariant

/-!
# The calls that write a value

A writer that is not refused anything is determined by the bytes it has accepted, however
they were cut, and so are the calls it has made: every full chunk was stored once, in
ascending order.  Finishing stores what is left as the last chunk, then the manifest, and
then removes the surplus chunks of the value that was there before.
-/

namespace ContentVault

open ChunkStore (Calls)

namespace ChunkStore

variable {Allowed : Call → Prop} {calls more : List Call} {base key : String} {s : ChunkStore}

def afterAll (calls : List Call) (s : ChunkStore) : ChunkStore :=
  calls.foldl (fun s call => s.after call) s

/-- The calls together with what became of them, in order. -/
def events : List Call → ChunkStore → List Event
  | [], _ => []
  | call :: calls, s => ⟨call, (s.refusal? call).isNone⟩ :: events calls (s.after call)

@[simp]
theorem afterAll_nil (s : ChunkStore) : s.afterAll [] = s := rfl

@[simp]
theorem afterAll_cons (call : Call) (calls : List Call) (s : ChunkStore) :
    s.afterAll (call :: calls) = (s.after call).afterAll calls := rfl

theorem afterAll_append (calls more : List Call) (s : ChunkStore) :
    s.afterAll (calls ++ more) = (s.afterAll calls).afterAll more :=
  List.foldl_append

theorem events_append (calls more : List Call) (s : ChunkStore) :
    s.events (calls ++ more) = s.events calls ++ (s.afterAll calls).events more := by
  induction calls generalizing s with
  | nil => rfl
  | cons call calls ih => rw [List.cons_append, events, ih, events, List.cons_append, afterAll_cons]

@[simp]
theorem map_call_events (calls : List Call) (s : ChunkStore) :
    (s.events calls).map Event.call = calls := by
  induction calls generalizing s with
  | nil => rfl
  | cons call calls ih => rw [events, List.map_cons, ih]

/-- The history tells of every call, the last one first. -/
theorem history_afterAll (calls : List Call) (s : ChunkStore) :
    (s.afterAll calls).history = (s.events calls).reverse ++ s.history := by
  induction calls generalizing s with
  | nil => rfl
  | cons call calls ih =>
    rw [afterAll_cons, ih, events, List.reverse_cons, List.append_assoc]
    rfl

theorem calls_afterAll (hallowed : ∀ call ∈ calls, Allowed call) (s : ChunkStore) :
    Calls Allowed s (s.afterAll calls) := by
  induction calls generalizing s with
  | nil => exact Calls.refl s
  | cons call calls ih =>
    apply (Calls.single (hallowed call List.mem_cons_self)).trans
    exact ih (fun call' hmem => hallowed call' (List.mem_cons_of_mem call hmem)) (s.after call)

theorem plan_afterAll (calls : List Call) (s : ChunkStore) : (s.afterAll calls).plan = s.plan :=
  (calls_afterAll (fun _ _ => trivial) s : Calls (fun _ => True) s _).plan_eq

/-- A key that none of the calls stores or removes keeps its value. -/
theorem getElem?_afterAll (hkeeps : ∀ call ∈ calls, ¬call.Alters key) (s : ChunkStore) :
    (s.afterAll calls).contents[key]? = s.contents[key]? :=
  (calls_afterAll hkeeps s).getElem?_eq fun _ hcall => hcall

/-- The store refuses at most to remove other keys than the base key. -/
def ServesWriting (base : String) (s : ChunkStore) : Prop :=
  ∀ tally call, (∀ key, call = .remove key → key = base) → s.plan tally call = none

theorem ServesWriting.afterAll (hserves : s.ServesWriting base) (calls : List Call) :
    (s.afterAll calls).ServesWriting base := by
  rw [ServesWriting, plan_afterAll]
  exact hserves

theorem ServesWriting.load (hserves : s.ServesWriting base) (key : String) :
    s.refusal? (.load key) = none :=
  hserves s.tally (.load key) fun _ heq => Call.noConfusion heq

theorem ServesWriting.store (hserves : s.ServesWriting base) (key : String) (value : Bytes) :
    s.refusal? (.store key value) = none :=
  hserves s.tally (.store key value) fun _ heq => Call.noConfusion heq

theorem ServesWriting.remove (hserves : s.ServesWriting base) :
    s.refusal? (.remove base) = none :=
  hserves s.tally (.remove base) fun _ heq => (Call.remove.inj heq).symm

theorem ServesAll.servesWriting (hserves : s.ServesAll) (base : String) : s.ServesWriting base :=
  fun tally call _ => hserves tally call

end ChunkStore

/-- The number of chunks in the manifest under a base key, and none if there is no
manifest that can be read. -/
def Contents.recordedChunks (contents : Contents) (base : String) : UInt64 :=
  match contents[base]? with
  | none => 0
  | some bytes =>
    match Manifest.decode bytes with
    | .error _ => 0
    | .ok manifest => manifest.chunks

def chunkCall (base : String) (size : Nat) (value : Bytes) (i : Nat) : Call :=
  .store (chunkKey base (.ofNat i)) (piece size value i)

def chunkCalls (base : String) (size : Nat) (value : Bytes) (indices : List Nat) : List Call :=
  indices.map (chunkCall base size value)

theorem range_append_range' (first count : Nat) :
    List.range first ++ List.range' first count = List.range (first + count) := by
  rw [List.range_eq_range', List.range_eq_range', ← List.range'_append_1, Nat.zero_add]

/-- More bytes do not change the chunks that were full before. -/
theorem chunkCalls_append_of_le (base : String) {size last : Nat} (accepted data : Bytes)
    (hle : accepted.length / size ≤ last) :
    chunkCalls base size accepted (List.range (accepted.length / size)) ++
      chunkCalls base size (accepted ++ data) (List.range' (accepted.length / size)
        (last - accepted.length / size)) =
      chunkCalls base size (accepted ++ data) (List.range last) := by
  have hkept : chunkCalls base size accepted (List.range (accepted.length / size)) =
      chunkCalls base size (accepted ++ data) (List.range (accepted.length / size)) := by
    apply List.map_congr_left
    intro i hi
    rw [List.mem_range] at hi
    rw [chunkCall, chunkCall,
      piece_append data (Nat.le_trans (Nat.mul_le_mul_right size hi) (Nat.div_mul_le_self _ _))]
  rw [hkept, chunkCalls, chunkCalls, ← List.map_append, range_append_range',
    Nat.add_sub_cancel' hle]
  rfl

theorem div_length_le_append (accepted data : Bytes) (size : Nat) :
    accepted.length / size ≤ (accepted ++ data).length / size :=
  Nat.div_le_div_right (by rw [List.length_append]; omega)

theorem chunkCalls_append (base : String) (size : Nat) (accepted data : Bytes) :
    chunkCalls base size accepted (List.range (accepted.length / size)) ++
      chunkCalls base size (accepted ++ data) (List.range' (accepted.length / size)
        ((accepted ++ data).length / size - accepted.length / size)) =
      chunkCalls base size (accepted ++ data) (List.range ((accepted ++ data).length / size)) :=
  chunkCalls_append_of_le base accepted data (div_length_le_append accepted data size)

def removeCalls (base : String) (indices : List Nat) : List Call :=
  indices.map fun i => .remove (chunkKey base (.ofNat i))

namespace ChunkWriter

variable {base : String} {chunkSize : ChunkSize} {replaced : UInt64} {accepted data : Bytes}
  {s t : ChunkStore}

/-- The writer that has accepted these bytes and was refused nothing. -/
def writing (base : String) (chunkSize : ChunkSize) (replaced : UInt64) (accepted : Bytes) :
    ChunkWriter where
  base := base
  chunkSize := chunkSize
  buffer := Buffer.empty.append (accepted.drop (accepted.length / chunkSize.toNat * chunkSize.toNat))
  committed := .ofNat (accepted.length / chunkSize.toNat)
  length := .ofNat accepted.length
  replaced := replaced
  state := .writing

theorem writing_nil : writing base chunkSize replaced [] =
    ⟨base, chunkSize, .empty, 0, 0, replaced, .writing⟩ := by
  simp [writing, Buffer.append]

/-- Where neither is refused, a value is begun by two calls, whatever the store holds.  There is
no writer only for want of a buffer. -/
theorem create_of_served (chunkSize : ChunkSize) (hload : s.refusal? (.load base) = none)
    (hremove : (s.after (.load base)).refusal? (.remove base) = none) :
    create base chunkSize s =
      (if chunkSize.IsAllocatable then
          .ok (writing base chunkSize (s.contents.recordedChunks base) [])
        else .error .panicked,
        s.afterAll [.load base, .remove base]) := by
  have hbegun (replaced : UInt64) :
      createReplacing base chunkSize replaced (s.after (.load base)) =
        (if chunkSize.IsAllocatable then .ok (writing base chunkSize replaced [])
          else .error .panicked, s.afterAll [.load base, .remove base]) := by
    rw [createReplacing, ChunkStore.remove_eq, hremove, writing_nil]
    by_cases hbuffer : chunkSize.IsAllocatable
    · rw [if_pos hbuffer]
      exact if_pos hbuffer
    · rw [if_neg hbuffer]
      exact if_neg hbuffer
  rw [create, ChunkStore.loadManifest, ChunkStore.load_eq, hload, Contents.recordedChunks]
  cases s.contents[base]? with
  | none => exact hbegun 0
  | some bytes =>
    cases hdecode : Manifest.decode bytes <;> simp only [hdecode] <;> exact hbegun _

theorem create_of_serves (hbuffer : chunkSize.IsAllocatable) (hserves : s.ServesWriting base) :
    create base chunkSize s =
      (.ok (writing base chunkSize (s.contents.recordedChunks base) []),
        s.afterAll [.load base, .remove base]) := by
  have hserves' : (s.after (.load base)).ServesWriting base := hserves
  rw [create_of_served chunkSize (hserves.load base) hserves'.remove, if_pos hbuffer]

theorem size_buffer_writing (base : String) (chunkSize : ChunkSize) (replaced : UInt64)
    (accepted : Bytes) : (writing base chunkSize replaced accepted).buffer.size =
      accepted.length % chunkSize.toNat := by
  rw [← Buffer.length_toList, writing, Buffer.toList_append, Buffer.toList_empty, List.nil_append,
    List.length_drop, Nat.mod_eq_sub_div_mul]

/-- What is buffered is the beginning of the first chunk that is not full. -/
theorem toList_buffer_writing (base : String) (chunkSize : ChunkSize) (replaced : UInt64)
    (accepted : Bytes) : (writing base chunkSize replaced accepted).buffer.toList =
      piece chunkSize.toNat accepted (accepted.length / chunkSize.toNat) := by
  have hrest := Nat.mod_lt accepted.length chunkSize.toNat_pos
  rw [writing, Buffer.toList_append, Buffer.toList_empty, List.nil_append, piece,
    List.take_of_length_le]
  rw [List.length_drop, ← Nat.mod_eq_sub_div_mul]
  exact Nat.le_of_lt hrest

/-- Bytes that do not fill the buffer are only buffered. -/
theorem accept_writing
    (hroom : (accepted ++ data).length / chunkSize.toNat = accepted.length / chunkSize.toNat) :
    (writing base chunkSize replaced accepted).accept data =
      writing base chunkSize replaced (accepted ++ data) := by
  have hle := Nat.div_mul_le_self accepted.length chunkSize.toNat
  simp only [writing, accept, mk.injEq, hroom, true_and, and_true]
  refine ⟨?_, ?_⟩
  · rw [Buffer.append_append, List.drop_append_of_le_length hle]
  · rw [List.length_append, UInt64.ofNat_add]

/-- The writer once its buffer is stored as a chunk. -/
def stored (w : ChunkWriter) : ChunkWriter :=
  { w with committed := w.committed + 1, buffer := .empty }

/-- Bytes that fill the buffer make a chunk of it, which is stored under the next index. -/
theorem chunkCall_of_full (base : String) (replaced : UInt64)
    (hfull : (accepted ++ data).length = (accepted.length / chunkSize.toNat + 1) * chunkSize.toNat) :
    let w := (writing base chunkSize replaced accepted).accept data
    Call.store (chunkKey w.base w.committed) w.buffer.toList =
        chunkCall base chunkSize.toNat (accepted ++ data) (accepted.length / chunkSize.toNat) ∧
      w.stored = writing base chunkSize replaced (accepted ++ data) := by
  intro w
  have hle := Nat.div_mul_le_self accepted.length chunkSize.toNat
  have hcount : (accepted ++ data).length / chunkSize.toNat =
      accepted.length / chunkSize.toNat + 1 := by
    rw [hfull, Nat.mul_div_cancel _ chunkSize.toNat_pos]
  refine ⟨?_, ?_⟩
  · have hbuffer : w.buffer.toList =
        piece chunkSize.toNat (accepted ++ data) (accepted.length / chunkSize.toNat) := by
      rw [toList_buffer_accept, writing, Buffer.toList_append, Buffer.toList_empty,
        List.nil_append, ← List.drop_append_of_le_length hle, piece, List.take_of_length_le]
      rw [List.length_drop, hfull, Nat.add_one_mul]
      exact Nat.sub_le_of_le_add (Nat.add_comm _ _ ▸ Nat.le_refl _)
    rw [hbuffer]
    rfl
  · simp only [w, stored, writing, accept, mk.injEq, true_and, and_true, hcount]
    refine ⟨?_, ?_, ?_⟩
    · rw [List.drop_of_length_le (Nat.le_of_eq hfull)]
      rfl
    · rw [UInt64.ofNat_add]
      rfl
    · rw [List.length_append, UInt64.ofNat_add]

/-- A chunk that is refused is named in the failure. -/
theorem commitChunk_cases (w : ChunkWriter) (s : ChunkStore) :
    let call := Call.store (chunkKey w.base w.committed) w.buffer.toList
    (∃ refusal, s.refusal? call = some refusal ∧ w.commitChunk s =
      (.error (.chunkCommitFailed w.committed refusal), w.fail w.committed, s.after call)) ∨
    (s.refusal? call = none ∧ w.commitChunk s = (.ok (), w.stored, s.after call)) := by
  intro call
  rw [commitChunk_eq]
  cases s.refusal? (.store (chunkKey w.base w.committed) w.buffer.toList) with
  | some refusal => exact .inl ⟨refusal, rfl, rfl⟩
  | none => exact .inr ⟨rfl, rfl⟩

/-- What comes of bytes that fill the chunks from `first` up to `last` of a value: these are
stored in ascending order, up to the first one that is refused. -/
inductive Fills (base : String) (size : Nat) (value : Bytes) (first last : Nat) (s : ChunkStore)
    (w : ChunkWriter) : Except VaultError Unit × ChunkWriter × ChunkStore → Prop where
  | taken (t : ChunkStore)
      (hstored : t = s.afterAll (chunkCalls base size value (List.range' first (last - first))))
      (hserved : s.AllServed t) :
      Fills base size value first last s w (.ok (), w, t)
  | refused {i : Nat} {refusal : StorageError} (failed : ChunkWriter) (u : ChunkStore)
      (hfirst : first ≤ i) (hlast : i < last)
      (hbefore : u = s.afterAll (chunkCalls base size value (List.range' first (i - first))))
      (hserved : s.AllServed u)
      (hrefused : u.refusal? (chunkCall base size value i) = some refusal)
      (hfailed : failed.state = .failed (.ofNat i)) :
      Fills base size value first last s w
        (.error (.chunkCommitFailed (.ofNat i) refusal), failed,
          u.after (chunkCall base size value i))

section Fills

variable {size first last : Nat} {w : ChunkWriter}
  {outcome : Except VaultError Unit × ChunkWriter × ChunkStore}

theorem range'_of_lt (hlt : first < last) :
    List.range' first (last - first) = first :: List.range' (first + 1) (last - (first + 1)) := by
  have hsub : last - first = last - (first + 1) + 1 := by omega
  rw [hsub, List.range'_succ]

theorem Fills.nothing (first : Nat) (s : ChunkStore) (w : ChunkWriter) :
    Fills base size data first first s w (.ok (), w, s) :=
  .taken s (by rw [Nat.sub_self]; rfl) (.refl s)

/-- Once the first chunk is stored the others are still to be. -/
theorem Fills.cons (hlt : first < last)
    (hserved : s.refusal? (chunkCall base size data first) = none)
    (hfills : Fills base size data (first + 1) last (s.after (chunkCall base size data first)) w
      outcome) :
    Fills base size data first last s w outcome := by
  have hstart := ChunkStore.allServed_after hserved
  have hcalls {i : Nat} (hi : first < i) :
      (s.after (chunkCall base size data first)).afterAll
          (chunkCalls base size data (List.range' (first + 1) (i - (first + 1)))) =
        s.afterAll (chunkCalls base size data (List.range' first (i - first))) := by
    rw [range'_of_lt hi]
    rfl
  cases hfills with
  | taken t hstored hrest => exact .taken t (hstored.trans (hcalls hlt)) (hstart.trans hrest)
  | refused failed u hfirst hlast hbefore hrest hrefused hfailed =>
    exact .refused failed u (Nat.le_of_succ_le hfirst) hlast (hbefore.trans (hcalls hfirst))
      (hstart.trans hrest) hrefused hfailed

theorem Fills.of_serves (hserves : s.ServesWriting base)
    (hfills : Fills base size data first last s w outcome) :
    outcome =
      (.ok (), w, s.afterAll (chunkCalls base size data (List.range' first (last - first)))) := by
  cases hfills with
  | taken t hstored hserved => rw [hstored]
  | refused failed u hfirst hlast hbefore hserved hrefused hfailed =>
    rw [hbefore, chunkCall, (hserves.afterAll _).store] at hrefused
    cases hrefused

end Fills

theorem fill_succ_of_full {w : ChunkWriter} {first : Bytes} (count : Nat) (rest : Bytes)
    (s : ChunkStore) (hfirst : w.buffer.size + first.length = w.chunkSize.toNat) :
    fill (count + 1) w (first ++ rest) s =
      match (w.accept first).commitChunk s with
      | (.error error, w, s) => (.error error, w, s)
      | (.ok _, w, s) => fill count w rest s := by
  have hroom : w.chunkSize.toNat - w.buffer.size = first.length := by omega
  rewrite [fill, hroom, List.take_left, List.drop_left]
  rfl

/-- Filling stores the chunks from the first one that is not full on. -/
theorem fill_writing {count : Nat} (chunkSize : ChunkSize) (replaced : UInt64)
    (accepted data : Bytes) (s : ChunkStore)
    (hcount : accepted.length / chunkSize.toNat + count =
      (accepted ++ data).length / chunkSize.toNat) :
    Fills base chunkSize.toNat (accepted ++ data) (accepted.length / chunkSize.toNat)
      ((accepted ++ data).length / chunkSize.toNat) s
      (writing base chunkSize replaced (accepted ++ data))
      (fill count (writing base chunkSize replaced accepted) data s) := by
  have hpos := chunkSize.toNat_pos
  induction count generalizing accepted data s with
  | zero =>
    rw [Nat.add_zero] at hcount
    rw [fill, accept_writing hcount.symm, ← hcount]
    exact .nothing _ s _
  | succ count ih =>
    have hdiv := Nat.div_add_mod accepted.length chunkSize.toNat
    have hmod := Nat.mod_lt accepted.length hpos
    have henough : (accepted.length / chunkSize.toNat + 1) * chunkSize.toNat ≤
        (accepted ++ data).length := by
      rw [← Nat.le_div_iff_mul_le hpos]
      omega
    rw [List.length_append, Nat.add_one_mul, Nat.mul_comm] at henough
    obtain ⟨first, rest, rfl, hfirst⟩ : ∃ first rest, data = first ++ rest ∧
        accepted.length % chunkSize.toNat + first.length = chunkSize.toNat := by
      refine ⟨_, _, (List.take_append_drop
        (chunkSize.toNat - accepted.length % chunkSize.toNat) data).symm, ?_⟩
      rw [List.length_take]
      omega
    have hfull : (accepted ++ first).length =
        (accepted.length / chunkSize.toNat + 1) * chunkSize.toNat := by
      rw [List.length_append, Nat.add_one_mul, Nat.mul_comm]
      omega
    have hnext : (accepted ++ first).length / chunkSize.toNat =
        accepted.length / chunkSize.toNat + 1 := by
      rw [hfull, Nat.mul_div_cancel _ hpos]
    have hbuffer := (congrArg (· + first.length)
      (size_buffer_writing base chunkSize replaced accepted)).trans hfirst
    have hcall : chunkCall base chunkSize.toNat (accepted ++ first)
        (accepted.length / chunkSize.toNat) = chunkCall base chunkSize.toNat
          (accepted ++ (first ++ rest)) (accepted.length / chunkSize.toNat) := by
      rw [chunkCall, chunkCall, ← List.append_assoc, piece_append rest (Nat.le_of_eq hfull.symm)]
    have hcommit := commitChunk_cases ((writing base chunkSize replaced accepted).accept first) s
    obtain ⟨hfirstCall, hstored⟩ := chunkCall_of_full base replaced hfull
    rw [hfirstCall, hcall, hstored] at hcommit
    rcases hcommit with ⟨refusal, hrefused, hcommit⟩ | ⟨hserved, hcommit⟩
    · rw [fill_succ_of_full count rest s hbuffer, hcommit]
      exact .refused _ s (Nat.le_refl _) (by omega) (by rw [Nat.sub_self]; rfl) (.refl s)
        hrefused rfl
    · rw [fill_succ_of_full count rest s hbuffer, hcommit]
      apply Fills.cons (by omega) hserved
      have hrest := ih (accepted ++ first) rest (s.after (chunkCall base chunkSize.toNat
        (accepted ++ (first ++ rest)) (accepted.length / chunkSize.toNat))) (by
          rw [hnext, List.append_assoc]
          omega)
      rw [hnext, List.append_assoc] at hrest
      exact hrest

/-- Writing stores every chunk that becomes full, up to the first one that is refused. -/
theorem write_writing (base : String) (chunkSize : ChunkSize) (replaced : UInt64)
    (accepted data : Bytes) (s : ChunkStore) :
    Fills base chunkSize.toNat (accepted ++ data) (accepted.length / chunkSize.toNat)
      ((accepted ++ data).length / chunkSize.toNat) s
      (writing base chunkSize replaced (accepted ++ data))
      ((writing base chunkSize replaced accepted).write data s) := by
  have hpos := chunkSize.toNat_pos
  have hdiv := Nat.div_add_mod accepted.length chunkSize.toNat
  have hcount : (accepted ++ data).length / chunkSize.toNat =
      accepted.length / chunkSize.toNat +
        ((writing base chunkSize replaced accepted).buffer.size + data.length) /
          (writing base chunkSize replaced accepted).chunkSize.toNat := by
    rw [size_buffer_writing]
    have hsum : (accepted ++ data).length =
        accepted.length % chunkSize.toNat + data.length +
          chunkSize.toNat * (accepted.length / chunkSize.toNat) := by
      rw [List.length_append]
      omega
    rw [hsum, Nat.add_mul_div_left _ _ hpos, Nat.add_comm]
    rfl
  rw [write_of_writing rfl]
  exact fill_writing _ replaced accepted data s hcount.symm

/-- Writes pieces one after the other, as long as each can be written. -/
def writeAll : List Bytes → ChunkWriter → ChunkStore →
    Except VaultError Unit × ChunkWriter × ChunkStore
  | [], w, s => (.ok (), w, s)
  | piece :: pieces, w, s =>
    match w.write piece s with
    | (.error error, w, s) => (.error error, w, s)
    | (.ok _, w, s) => writeAll pieces w s

/-- However a value is cut, writing it stores its full chunks. -/
theorem writeAll_writing (chunkSize : ChunkSize) (replaced : UInt64) (accepted : Bytes)
    (pieces : List Bytes) (hserves : s.ServesWriting base)
    (hstored : s = t.afterAll (chunkCalls base chunkSize.toNat accepted
      (List.range (accepted.length / chunkSize.toNat)))) :
    writeAll pieces (writing base chunkSize replaced accepted) s =
      (.ok (), writing base chunkSize replaced (accepted ++ pieces.flatten),
        t.afterAll (chunkCalls base chunkSize.toNat (accepted ++ pieces.flatten)
          (List.range ((accepted ++ pieces.flatten).length / chunkSize.toNat)))) := by
  induction pieces generalizing accepted s with
  | nil =>
    rw [writeAll, List.flatten_nil, List.append_nil, hstored]
  | cons piece pieces ih =>
    have hwrite := (write_writing base chunkSize replaced accepted piece s).of_serves hserves
    rw [writeAll, hwrite, List.flatten_cons, ← List.append_assoc]
    apply ih _ (hserves.afterAll _)
    rw [hstored, ← ChunkStore.afterAll_append, chunkCalls_append _ _ accepted]

theorem removeChunks_eq (base : String) (count first : Nat) (s : ChunkStore) :
    removeChunks base count (.ofNat first) s =
      s.afterAll (removeCalls base (List.range' first count)) := by
  induction count generalizing first s with
  | zero => rfl
  | succ count ih =>
    have hnext : UInt64.ofNat first + 1 = .ofNat (first + 1) := (UInt64.ofNat_add first 1).symm
    rw [removeChunks, ChunkStore.remove_eq, hnext, ih]
    rfl

/-- The calls of closing a value: its manifest, and the removal of surplus chunks. -/
def closeCalls (w : ChunkWriter) : List Call :=
  .store w.base w.manifest.encode ::
    removeCalls w.base
      (List.range' w.committed.toNat (w.replaced.toNat - w.committed.toNat))

/-- A value is closed by its manifest and the removal of surplus chunks, unless the manifest
is refused. -/
theorem close_cases (w : ChunkWriter) (s : ChunkStore) :
    (∃ refusal, s.refusal? (.store w.base w.manifest.encode) = some refusal ∧ w.close s =
      (.error (.chunkCommitFailed w.committed refusal), w.fail w.committed,
        s.after (.store w.base w.manifest.encode))) ∨
    (s.refusal? (.store w.base w.manifest.encode) = none ∧ w.close s =
      (.ok w.manifest, { w with replaced := 0, state := .finished }, s.afterAll w.closeCalls)) := by
  rw [close_eq]
  cases s.refusal? (.store w.base w.manifest.encode) with
  | some refusal => exact .inl ⟨refusal, rfl, rfl⟩
  | none =>
    simp only [closeCalls, ChunkStore.afterAll_cons, ← removeChunks_eq, UInt64.ofNat_toNat]
    exact .inr ⟨trivial, trivial⟩

theorem close_of_serves (w : ChunkWriter) (hserves : s.ServesWriting w.base) :
    w.close s = (.ok w.manifest, { w with replaced := 0, state := .finished },
      s.afterAll w.closeCalls) := by
  rcases close_cases w s with ⟨refusal, hrefused, -⟩ | ⟨-, hclose⟩
  · rw [hserves.store] at hrefused
    cases hrefused
  · exact hclose

/-- The writer once all its bytes are stored: what is buffered becomes the last chunk, and
an empty value has an empty one. -/
def complete (w : ChunkWriter) : ChunkWriter :=
  if w.buffer.size ≠ 0 ∨ w.committed = 0 then w.stored else w

@[simp]
theorem base_complete (w : ChunkWriter) : w.complete.base = w.base := by
  rw [complete]
  split <;> rfl

@[simp]
theorem chunkSize_complete (w : ChunkWriter) : w.complete.chunkSize = w.chunkSize := by
  rw [complete]
  split <;> rfl

@[simp]
theorem replaced_complete (w : ChunkWriter) : w.complete.replaced = w.replaced := by
  rw [complete]
  split <;> rfl

/-- The calls of finishing a value: its last chunk if one is due, and then those of
closing it. -/
def finishCalls (w : ChunkWriter) : List Call :=
  (if w.buffer.size ≠ 0 ∨ w.committed = 0 then
    [.store (chunkKey w.base w.committed) w.buffer.toList] else []) ++ w.complete.closeCalls

theorem finish_of_serves {w : ChunkWriter} (hwriting : w.state = .writing)
    (hserves : s.ServesWriting w.base) :
    w.finish s = (.ok w.complete.manifest, { w.complete with replaced := 0, state := .finished },
      s.afterAll w.finishCalls) := by
  by_cases hlast : w.buffer.size ≠ 0 ∨ w.committed = 0
  · have hserves' : (s.after (.store (chunkKey w.base w.committed) w.buffer.toList)).ServesWriting
        w.base := hserves
    simp only [finish, ensureWriting_of_writing hwriting, if_pos hlast, commitChunk_eq,
      hserves.store, finishCalls, complete]
    exact close_of_serves _ hserves'
  · simp only [finish, ensureWriting_of_writing hwriting, if_neg hlast, finishCalls, complete]
    exact close_of_serves w hserves

end ChunkWriter

/-- All calls of writing a value in place of one with so many chunks. -/
def layoutCalls (base : String) (chunkSize : ChunkSize) (value : Bytes) (recorded : Nat) :
    List Call :=
  let count := chunkCount chunkSize.toNat value.length
  [.load base, .remove base] ++ chunkCalls base chunkSize.toNat value (List.range count) ++
    .store base (manifestOf chunkSize value).encode ::
      removeCalls base (List.range' count (recorded - count))

namespace ChunkWriter

variable {base : String} {chunkSize : ChunkSize} {replaced : UInt64} {value : Bytes}
  {t : ChunkStore}

theorem toNat_committed_of_manifest {w : ChunkWriter}
    (hmanifest : w.manifest = manifestOf chunkSize value)
    (hfits : value.length < UInt64.size) :
    w.committed.toNat = chunkCount chunkSize.toNat value.length := by
  rw [← toNat_chunks_manifestOf chunkSize hfits, ← hmanifest]
  rfl

theorem closeCalls_of_manifest {w : ChunkWriter}
    (hmanifest : w.manifest = manifestOf w.chunkSize value)
    (hfits : value.length < UInt64.size) :
    w.closeCalls = .store w.base (manifestOf w.chunkSize value).encode ::
      removeCalls w.base (List.range' (chunkCount w.chunkSize.toNat value.length)
        (w.replaced.toNat - chunkCount w.chunkSize.toNat value.length)) := by
  rw [closeCalls, toNat_committed_of_manifest hmanifest hfits, hmanifest]

/-- Unless the last chunk is due, all chunks of the value are full and stored. -/
theorem lastChunk_cases (base : String) (chunkSize : ChunkSize) (replaced : UInt64)
    (hfits : value.length < UInt64.size) :
    let w := writing base chunkSize replaced value
    let full := value.length / chunkSize.toNat
    ((w.buffer.size ≠ 0 ∨ w.committed = 0) ∧
        chunkCount chunkSize.toNat value.length = full + 1 ∧
        w.buffer.toList = piece chunkSize.toNat value full) ∨
      (¬(w.buffer.size ≠ 0 ∨ w.committed = 0) ∧
        chunkCount chunkSize.toNat value.length = full) := by
  intro w full
  have hpos := chunkSize.toNat_pos
  have hdiv : full * chunkSize.toNat + value.length % chunkSize.toNat = value.length :=
    Nat.div_add_mod' _ _
  have hmod := Nat.mod_lt value.length hpos
  have hsize : w.buffer.size = value.length % chunkSize.toNat :=
    size_buffer_writing base chunkSize replaced value
  have hcommitted : w.committed = 0 ↔ full = 0 := by
    have hword : w.committed.toNat = full :=
      UInt64.toNat_ofNat_of_lt' (Nat.lt_of_le_of_lt (Nat.div_le_self _ _) hfits)
    rw [← UInt64.toNat_inj, hword, UInt64.toNat_zero]
  by_cases hdue : w.buffer.size ≠ 0 ∨ w.committed = 0
  · refine .inl ⟨hdue, ?_, ?_⟩
    · rw [hsize, hcommitted] at hdue
      exact chunkCount_of_eq hpos (Nat.le_of_lt hmod) hdiv (hdue.imp_left Nat.pos_of_ne_zero)
    · exact toList_buffer_writing base chunkSize replaced value
  · refine .inr ⟨hdue, ?_⟩
    rw [hsize, hcommitted, not_or, not_not] at hdue
    rw [hdue.1, Nat.add_zero] at hdiv
    exact chunkCount_of_full hpos hdiv hdue.2

theorem manifest_complete_writing (base : String) (chunkSize : ChunkSize) (replaced : UInt64)
    (hfits : value.length < UInt64.size) :
    (writing base chunkSize replaced value).complete.manifest = manifestOf chunkSize value := by
  rcases lastChunk_cases base chunkSize replaced hfits with ⟨hdue, hcount, -⟩ | ⟨hnone, hcount⟩
  · rw [complete, if_pos hdue, manifestOf, hcount, UInt64.ofNat_add]
    rfl
  · rw [complete, if_neg hnone, manifestOf, hcount]
    rfl

/-- What is stored before and while a value is finished are all its chunks. -/
theorem finishCalls_writing (base : String) (chunkSize : ChunkSize) (replaced : UInt64)
    (hfits : value.length < UInt64.size) :
    chunkCalls base chunkSize.toNat value (List.range (value.length / chunkSize.toNat)) ++
        (writing base chunkSize replaced value).finishCalls =
      chunkCalls base chunkSize.toNat value
          (List.range (chunkCount chunkSize.toNat value.length)) ++
        .store base (manifestOf chunkSize value).encode ::
          removeCalls base (List.range' (chunkCount chunkSize.toNat value.length)
            (replaced.toNat - chunkCount chunkSize.toNat value.length)) := by
  have hclose : (writing base chunkSize replaced value).complete.closeCalls =
      .store base (manifestOf chunkSize value).encode ::
        removeCalls base (List.range' (chunkCount chunkSize.toNat value.length)
          (replaced.toNat - chunkCount chunkSize.toNat value.length)) := by
    have hmanifest := manifest_complete_writing base chunkSize replaced hfits
    rw [closeCalls_of_manifest (by rw [hmanifest, chunkSize_complete]; rfl) hfits,
      base_complete, chunkSize_complete, replaced_complete]
    rfl
  rw [finishCalls, hclose]
  rcases lastChunk_cases base chunkSize replaced hfits with ⟨hdue, hcount, hpiece⟩ |
    ⟨hnone, hcount⟩
  · rw [if_pos hdue, hpiece, hcount, List.range_succ, chunkCalls, chunkCalls, List.map_append,
      List.append_assoc]
    rfl
  · rw [if_neg hnone, hcount, List.nil_append]

/-- Once the full chunks are stored, finishing makes what is left of the calls. -/
theorem finish_writing (chunkSize : ChunkSize) (replaced : UInt64) (hserves : t.ServesWriting base)
    (hfits : value.length < UInt64.size) :
    (writing base chunkSize replaced value).finish
        (t.afterAll (chunkCalls base chunkSize.toNat value
          (List.range (value.length / chunkSize.toNat)))) =
      (.ok (manifestOf chunkSize value),
        { (writing base chunkSize replaced value).complete with replaced := 0, state := .finished },
        t.afterAll (chunkCalls base chunkSize.toNat value
            (List.range (chunkCount chunkSize.toNat value.length)) ++
          .store base (manifestOf chunkSize value).encode ::
            removeCalls base (List.range' (chunkCount chunkSize.toNat value.length)
              (replaced.toNat - chunkCount chunkSize.toNat value.length)))) := by
  have hwriting : (writing base chunkSize replaced value).state = .writing := rfl
  have hfinish := finish_of_serves hwriting (hserves.afterAll (chunkCalls base chunkSize.toNat value
    (List.range (value.length / chunkSize.toNat))))
  rw [manifest_complete_writing _ _ _ hfits, ← ChunkStore.afterAll_append,
    finishCalls_writing _ _ _ hfits] at hfinish
  exact hfinish

end ChunkWriter

end ContentVault
