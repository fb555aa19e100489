import ContentVault.Proofs.WriterProgress
import ContentVault.Proofs.WriterTrace

/-!
# The loop of a write

A write takes its bytes in pass by pass: as many as there is room for in the buffer, or all that
are left.  A pass that fills the buffer stores it as a chunk, so there is room again when the next
one begins, every pass takes in a byte, and the loop ends.  As long as a writer is refused
nothing, its counters, its buffer and the chunks in its store are told by the bytes that it has
accepted.
-/

namespace ContentVault

namespace ChunkWriter

variable {w w' : ChunkWriter} {s s' : ChunkStore} {data accepted : Bytes} {error : VaultError}
  {base : String} {chunkSize : ChunkSize}

/-! ### Passes -/

def portion (w : ChunkWriter) (data : Bytes) : Nat :=
  min (w.chunkSize.toNat - w.buffer.size) data.length

/-- One pass: takes bytes into the buffer, and stores the chunk if they fill it. -/
def pass (w : ChunkWriter) (data : Bytes) (s : ChunkStore) :
    Except VaultError Unit × ChunkWriter × ChunkStore :=
  let taken := w.accept (data.take (w.portion data))
  if taken.buffer.size = w.chunkSize.toNat then taken.commitChunk s else (.ok (), taken, s)

/-- The loop over the bytes of a write: passes are made until no bytes are left or a chunk is
refused.  Each pass is listed by the writer that begins it and the bytes that are left then. -/
inductive Loops : ChunkWriter → Bytes → ChunkStore → List (ChunkWriter × Bytes) →
    Except VaultError Unit × ChunkWriter × ChunkStore → Prop where
  | done (w : ChunkWriter) (s : ChunkStore) : Loops w [] s [] (.ok (), w, s)
  | refused {w w' : ChunkWriter} {data : Bytes} {s s' : ChunkStore} {error : VaultError}
      (hdata : data ≠ []) (hpass : w.pass data s = (.error error, w', s')) :
      Loops w data s [(w, data)] (.error error, w', s')
  | next {w w' : ChunkWriter} {data : Bytes} {s s' : ChunkStore}
      {heads : List (ChunkWriter × Bytes)}
      {result : Except VaultError Unit × ChunkWriter × ChunkStore}
      (hdata : data ≠ []) (hpass : w.pass data s = (.ok (), w', s'))
      (hrest : Loops w' (data.drop (w.portion data)) s' heads result) :
      Loops w data s ((w, data) :: heads) result

theorem portion_pos (hroom : w.buffer.size < w.chunkSize.toNat) (hdata : data ≠ []) :
    0 < w.portion data :=
  Nat.lt_min.2 ⟨Nat.sub_pos_of_lt hroom, List.length_pos_iff.2 hdata⟩

/-- Bytes that do not fill the buffer are taken in all at once. -/
theorem pass_of_lt (hroom : w.buffer.size + data.length < w.chunkSize.toNat) (s : ChunkStore) :
    w.portion data = data.length ∧ w.pass data s = (.ok (), w.accept data, s) := by
  have hportion : w.portion data = data.length := Nat.min_eq_right (by omega)
  have hsize : (w.accept data).buffer.size = w.buffer.size + data.length := rfl
  refine ⟨hportion, ?_⟩
  rw [pass, hportion, List.take_length, if_neg (by omega)]

/-- Of more bytes those are taken in that the buffer has room for, and they fill it. -/
theorem pass_of_le (hroom : w.buffer.size < w.chunkSize.toNat)
    (henough : w.chunkSize.toNat ≤ w.buffer.size + data.length) (s : ChunkStore) :
    w.portion data = w.chunkSize.toNat - w.buffer.size ∧
      w.pass data s =
        (w.accept (data.take (w.chunkSize.toNat - w.buffer.size))).commitChunk s := by
  have hportion : w.portion data = w.chunkSize.toNat - w.buffer.size :=
    Nat.min_eq_left (by omega)
  have hsize : (w.accept (data.take (w.chunkSize.toNat - w.buffer.size))).buffer.size =
      w.chunkSize.toNat := by
    change w.buffer.size + (data.take (w.chunkSize.toNat - w.buffer.size)).length = _
    rw [List.length_take]
    omega
  refine ⟨hportion, ?_⟩
  rw [pass, hportion, if_pos hsize]

/-- A pass leaves room in the buffer. -/
theorem room_of_pass (hroom : w.buffer.size < w.chunkSize.toNat)
    (hpass : w.pass data s = (.ok (), w', s')) : w'.buffer.size < w'.chunkSize.toNat := by
  rcases Nat.lt_or_ge (w.buffer.size + data.length) w.chunkSize.toNat with hlt | hge
  · rw [(pass_of_lt hlt s).2] at hpass
    cases hpass
    exact hlt
  · rw [(pass_of_le hroom hge s).2] at hpass
    obtain ⟨rfl, -⟩ := eq_of_commitChunk_ok hpass
    exact w.chunkSize.toNat_pos

/-! ### Loops -/

/-- There is room when a pass begins, and so it takes in a byte. -/
theorem Loops.portion_pos {heads : List (ChunkWriter × Bytes)}
    {result : Except VaultError Unit × ChunkWriter × ChunkStore}
    (hloops : Loops w data s heads result) (hroom : w.buffer.size < w.chunkSize.toNat) :
    ∀ head ∈ heads, head.1.buffer.size < head.1.chunkSize.toNat ∧ 0 < head.1.portion head.2 := by
  induction hloops with
  | done => exact fun _ hmem => absurd hmem List.not_mem_nil
  | refused hdata hpass =>
    intro head hmem
    rw [List.mem_singleton.1 hmem]
    exact ⟨hroom, ChunkWriter.portion_pos hroom hdata⟩
  | next hdata hpass hrest ih =>
    refine List.forall_mem_cons.2 ⟨⟨hroom, ChunkWriter.portion_pos hroom hdata⟩, ?_⟩
    exact ih (room_of_pass hroom hpass)

theorem Loops.unique {heads heads' : List (ChunkWriter × Bytes)}
    {result result' : Except VaultError Unit × ChunkWriter × ChunkStore}
    (hloops : Loops w data s heads result) (hloops' : Loops w data s heads' result') :
    heads = heads' ∧ result = result' := by
  induction hloops generalizing heads' result' with
  | done =>
    cases hloops' with
    | done => exact ⟨rfl, rfl⟩
    | refused hdata => exact absurd rfl hdata
    | next hdata => exact absurd rfl hdata
  | refused hdata hpass =>
    cases hloops' with
    | done => exact absurd rfl hdata
    | refused _ hpass' =>
      rw [hpass] at hpass'
      exact ⟨rfl, hpass'⟩
    | next _ hpass' =>
      rw [hpass] at hpass'
      cases hpass'
  | next hdata hpass hrest ih =>
    cases hloops' with
    | done => exact absurd rfl hdata
    | refused _ hpass' =>
      rw [hpass] at hpass'
      cases hpass'
    | next _ hpass' hrest' =>
      rw [hpass] at hpass'
      cases hpass'
      obtain ⟨rfl, rfl⟩ := ih hrest'
      exact ⟨rfl, rfl⟩

theorem accept_nil (w : ChunkWriter) : w.accept [] = w := by
  have hbuffer : w.buffer.append [] = w.buffer :=
    Buffer.toList_injective (by rw [Buffer.toList_append, List.append_nil])
  have hlength : w.length + UInt64.ofNat 0 = w.length := UInt64.add_zero w.length
  rw [accept, hbuffer, List.length_nil, hlength]

/-- Filling a number of chunks and buffering the rest is a loop of one pass for each. -/
theorem exists_loops_fill {count : Nat} (hroom : w.buffer.size < w.chunkSize.toNat)
    (hcount : (w.buffer.size + data.length) / w.chunkSize.toNat = count) (s : ChunkStore) :
    ∃ heads, Loops w data s heads (fill count w data s) := by
  induction count generalizing w data s with
  | zero =>
    have hlt := (Nat.div_eq_zero_iff_lt w.chunkSize.toNat_pos).1 hcount
    obtain ⟨hportion, hpass⟩ := pass_of_lt hlt s
    rw [fill]
    by_cases hdata : data = []
    · subst hdata
      rw [accept_nil]
      exact ⟨[], .done w s⟩
    · have hrest : data.drop (w.portion data) = [] := by rw [hportion, List.drop_length]
      refine ⟨[(w, data)], .next hdata hpass ?_⟩
      rw [hrest]
      exact .done _ s
  | succ count ih =>
    have hmul := Nat.div_mul_le_self (w.buffer.size + data.length) w.chunkSize.toNat
    rw [hcount, Nat.add_one_mul] at hmul
    have henough : w.chunkSize.toNat ≤ w.buffer.size + data.length := by omega
    obtain ⟨hportion, hpass⟩ := pass_of_le hroom henough s
    have hdata : data ≠ [] := by
      rintro rfl
      rw [List.length_nil] at henough
      omega
    rcases fill_succ_cases count w data s with ⟨error, w₁, s₁, hcommit, heq⟩ |
      ⟨w₁, s₁, hcommit, heq⟩
    · rw [heq]
      exact ⟨_, .refused hdata (hpass.trans hcommit)⟩
    · rw [heq]
      have hstored := hpass.trans hcommit
      have hroom₁ := room_of_pass hroom hstored
      obtain ⟨rfl, -⟩ := eq_of_commitChunk_ok hcommit
      have hcount₁ : (0 + (data.drop (w.chunkSize.toNat - w.buffer.size)).length) /
          w.chunkSize.toNat = count := by
        have hrest : w.buffer.size + data.length =
            0 + (data.length - (w.chunkSize.toNat - w.buffer.size)) + w.chunkSize.toNat := by omega
        rw [hrest, Nat.add_div_right _ w.chunkSize.toNat_pos] at hcount
        rw [List.length_drop]
        exact Nat.succ.inj hcount
      obtain ⟨heads, hloops⟩ := ih hroom₁ hcount₁ s₁
      refine ⟨(w, data) :: heads, .next hdata hstored ?_⟩
      rw [hportion]
      exact hloops

/-- The loop of every write ends, in any store, with what the write comes to.  Whenever one of its
passes begins there is room in the buffer, and the pass takes in a byte. -/
def LoopsEnd (w : ChunkWriter) : Prop :=
  ∀ (data : Bytes) (s : ChunkStore),
    (∃ heads, Loops w data s heads (w.write data s)) ∧
    ∀ heads result, Loops w data s heads result → result = w.write data s ∧
      ∀ head ∈ heads, head.1.buffer.size < head.1.chunkSize.toNat ∧ 0 < head.1.portion head.2

theorem loopsEnd_of_writing (hwriting : w.state = .writing)
    (hroom : w.buffer.size < w.chunkSize.toNat) : w.LoopsEnd := by
  intro data s
  obtain ⟨heads, hloops⟩ := exists_loops_fill hroom rfl s
  rw [← write_of_writing hwriting] at hloops
  refine ⟨⟨heads, hloops⟩, fun heads' result hloops' => ⟨?_, hloops'.portion_pos hroom⟩⟩
  exact (hloops'.unique hloops).2

/-! ### Runs of a writer -/

/-- A writer and its store before and after calls that succeeded, and the bytes that were accepted
by these.  In between, others may do with the store what they like, but for the keys that the
value occupies. -/
inductive Accepts (start : ChunkWriter × ChunkStore) : Bytes → ChunkWriter × ChunkStore → Prop where
  | nothing : Accepts start [] start
  | write {accepted data : Bytes} {w w' : ChunkWriter} {s s' : ChunkStore}
      (hbefore : Accepts start accepted (w, s)) (hwrite : w.write data s = (.ok (), w', s')) :
      Accepts start (accepted ++ data) (w', s')
  | stream {accepted data : Bytes} {count : Nat} {w w' : ChunkWriter} {s s' : ChunkStore}
      (hbefore : Accepts start accepted (w, s))
      (hwrite : w.writeStream data s = (.ok count, w', s')) :
      Accepts start (accepted ++ data.take count) (w', s')
  | flush {accepted : Bytes} {w w' : ChunkWriter} {s s' : ChunkStore}
      (hbefore : Accepts start accepted (w, s)) (hflush : w.flush s = (.ok (), w', s')) :
      Accepts start accepted (w', s')
  | elsewhere {accepted : Bytes} {w : ChunkWriter} {s s' : ChunkStore}
      (hbefore : Accepts start accepted (w, s))
      (hkeeps : ∀ key, Occupies w.base key → s'.contents[key]? = s.contents[key]?) :
      Accepts start accepted (w, s')

/-- The writer has accepted these bytes since it was created and was refused nothing. -/
structure HasAccepted (base : String) (chunkSize : ChunkSize) (replaced : UInt64)
    (accepted : Bytes) (w : ChunkWriter) (s : ChunkStore) : Prop where
  writer : w = writing base chunkSize replaced accepted
  unclosed : s.contents[base]? = none
  holds : accepted.length < UInt64.size → w.Holds s.contents accepted

namespace HasAccepted

variable {replaced : UInt64}

theorem create (hcreate : ChunkWriter.create base chunkSize s = (.ok w, s')) :
    ∃ replaced, HasAccepted base chunkSize replaced [] w s' := by
  obtain ⟨⟨replaced, hw⟩, -⟩ := eq_of_create_ok hcreate
  obtain ⟨hbase, -, hholds⟩ := Holds.create hcreate
  have hunclosed := hholds.unclosed
  rw [hbase] at hunclosed
  exact ⟨replaced, hw.trans writing_nil.symm, hunclosed, fun _ => hholds⟩

theorem write (hw : HasAccepted base chunkSize replaced accepted w s)
    (hwrite : w.write data s = (.ok (), w', s')) :
    HasAccepted base chunkSize replaced (accepted ++ data) w' s' := by
  obtain ⟨rfl, hunclosed, hholds⟩ := hw
  refine ⟨?_, ?_, fun hfits => ((hholds (fits_of_append hfits)).write hfits hwrite).2.2⟩
  · have hfills := write_writing base chunkSize replaced accepted data s
    rw [hwrite] at hfills
    cases hfills
    rfl
  · have hcalls := calls_write (writing base chunkSize replaced accepted) data s
    rw [hwrite] at hcalls
    exact (hcalls.getElem?_eq fun _ hcall => hcall.not_alters_base).trans hunclosed

/-- Writing to the end of a stream is writing, and all bytes are accepted. -/
theorem stream {count : Nat} (hw : HasAccepted base chunkSize replaced accepted w s)
    (hwrite : w.writeStream data s = (.ok count, w', s')) :
    HasAccepted base chunkSize replaced (accepted ++ data.take count) w' s' := by
  rw [writeStream] at hwrite
  split at hwrite
  · cases hwrite
  · rename_i hwritten
    cases hwrite
    rw [List.take_length]
    exact hw.write hwritten

theorem elsewhere (hw : HasAccepted base chunkSize replaced accepted w s)
    (hkeeps : ∀ key, Occupies w.base key → s'.contents[key]? = s.contents[key]?) :
    HasAccepted base chunkSize replaced accepted w s' := by
  obtain ⟨rfl, hunclosed, hholds⟩ := hw
  exact ⟨rfl, (hkeeps base (.base base)).trans hunclosed, fun hfits => (hholds hfits).congr hkeeps⟩

theorem of_accepts {w₀ : ChunkWriter} {s₀ : ChunkStore}
    (hstart : HasAccepted base chunkSize replaced [] w₀ s₀) {p : ChunkWriter × ChunkStore}
    (haccepts : Accepts (w₀, s₀) accepted p) :
    HasAccepted base chunkSize replaced accepted p.1 p.2 := by
  induction haccepts with
  | nothing => exact hstart
  | write _ hwrite ih => exact ih.write hwrite
  | stream _ hwrite ih => exact ih.stream hwrite
  | flush _ hflush ih =>
    cases hflush
    exact ih
  | elsewhere _ hkeeps ih => exact ih.elsewhere hkeeps

end HasAccepted

/-- What a writer and its store are, as told by the bytes that the writer has accepted.  The
counters are machine words, and so what they count is exact for fewer than `2 ^ 64` bytes. -/
structure Represents (base : String) (chunkSize : ChunkSize) (accepted : Bytes) (w : ChunkWriter)
    (s : ChunkStore) : Prop where
  base_eq : w.base = base
  chunkSize_eq : w.chunkSize = chunkSize
  /-- Less than a chunk is buffered. -/
  room : w.buffer.size < chunkSize.toNat
  /-- What is buffered is all that lies behind the full chunks. -/
  buffer : w.buffer.toList = accepted.drop (accepted.length / chunkSize.toNat * chunkSize.toNat)
  /-- There is no manifest. -/
  unclosed : s.contents[base]? = none
  length : w.length = .ofNat accepted.length
  committed : w.committed = .ofNat (accepted.length / chunkSize.toNat)
  counted : accepted.length < UInt64.size → w.length.toNat = accepted.length ∧
    w.length.toNat = w.committed.toNat * chunkSize.toNat + w.buffer.size
  /-- The store holds the chunks that are counted, each a full piece of the value. -/
  chunks : accepted.length < UInt64.size →
    s.contents.HoldsPieces base chunkSize accepted w.committed
  /-- In order, and with the buffer behind them, they are all that was accepted. -/
  joined : accepted.length < UInt64.size →
    ((List.range w.committed.toNat).map (piece chunkSize.toNat accepted)).flatten ++
      w.buffer.toList = accepted

theorem HasAccepted.represents {replaced : UInt64}
    (hw : HasAccepted base chunkSize replaced accepted w s) :
    Represents base chunkSize accepted w s := by
  obtain ⟨rfl, hunclosed, hholds⟩ := hw
  exact {
    base_eq := rfl
    chunkSize_eq := rfl
    room := by
      rw [size_buffer_writing]
      exact Nat.mod_lt _ chunkSize.toNat_pos
    buffer := by rw [writing, Buffer.toList_append, Buffer.toList_empty, List.nil_append]
    unclosed := hunclosed
    length := rfl
    committed := rfl
    counted := by
      intro hfits
      have hlength : (writing base chunkSize replaced accepted).length.toNat = accepted.length :=
        UInt64.toNat_ofNat_of_lt' hfits
      exact ⟨hlength, hlength.trans (hholds hfits).count.symm⟩
    chunks := fun hfits => (hholds hfits).chunks
    joined := by
      intro hfits
      have hbuffer := (hholds hfits).buffer
      rw [hbuffer, flatten_pieces]
      exact List.take_append_drop _ _ }

/-- Whatever a store has held before: after any calls that succeed, a writer is as the bytes tell
that it has accepted, and the loop of its next write ends, every pass of which takes in a byte. -/
theorem represents_of_accepts {w₀ : ChunkWriter} {s₀ : ChunkStore}
    (hcreate : create base chunkSize s = (.ok w₀, s₀))
    (haccepts : Accepts (w₀, s₀) accepted (w, s')) :
    Represents base chunkSize accepted w s' ∧ w.LoopsEnd := by
  obtain ⟨replaced, hstart⟩ := HasAccepted.create hcreate
  have hw : HasAccepted base chunkSize replaced accepted w s' := hstart.of_accepts haccepts
  have hrepresents := hw.represents
  refine ⟨hrepresents, loopsEnd_of_writing ?_ ?_⟩
  · rw [hw.writer]
    rfl
  · rw [hrepresents.chunkSize_eq]
    exact hrepresents.room

/-- A store that holds a chunk of an older value. -/
def usedStore : ChunkStore where
  contents := (∅ : Contents).insert (chunkKey (ContentKey.dataKey ⟨"k"⟩) 1) [9]

/-- Five bytes in two calls, while another value is stored: two chunks are full, in place of the
older one, and one byte is left. -/
theorem represents_of_accepts_usedStore :
    ∃ w₀ s₀ w t, create (ContentKey.dataKey ⟨"k"⟩) ⟨2, by decide⟩ usedStore = (.ok w₀, s₀) ∧
      Accepts (w₀, s₀) [1, 2, 3, 4, 5] (w, t) ∧ w.committed = 2 ∧ w.buffer.toList = [5] ∧
      t.contents[chunkKey (ContentKey.dataKey ⟨"k"⟩) 1]? = some [3, 4] := by
  let base := ContentKey.dataKey ⟨"k"⟩
  let other := Call.store (ContentKey.dataKey ⟨"j"⟩) [7]
  have hbuffer : ChunkSize.IsAllocatable ⟨2, by decide⟩ := by decide
  have hserves : usedStore.ServesAll := fun _ _ => rfl
  obtain ⟨w₀, s₀, hcreate⟩ := exists_create base hbuffer hserves
  obtain ⟨replaced, hw₀⟩ := HasAccepted.create hcreate
  have hcreated := calls_create base ⟨2, by decide⟩ usedStore
  rw [hcreate] at hcreated
  have hserves₀ := hserves.of_calls hcreated
  obtain ⟨w₁, s₁, hfirst⟩ := exists_write (hw₀.holds (by decide)).writing [1, 2, 3] hserves₀
  have hw₁ := hw₀.write hfirst
  have hwritten := calls_write w₀ [1, 2, 3] s₀
  rw [hfirst] at hwritten
  have hserves₁ : s₁.ServesAll := hserves₀.of_calls hwritten
  have hother : ∀ key, Occupies w₁.base key →
      (s₁.after other).contents[key]? = s₁.contents[key]? := by
    intro key hkey
    have hcalls : ChunkStore.Calls (· = other) s₁ (s₁.after other) := .single rfl
    refine hcalls.getElem?_eq ?_
    rintro _ rfl halters
    rw [hw₁.writer, ← Call.key_eq_of_alters halters] at hkey
    exact absurd (hkey.unique (.base _)) (by decide)
  obtain ⟨w₂, s₂, hsecond⟩ := exists_write (s := s₁.after other)
    (hw₁.holds (by decide)).writing [4, 5] hserves₁
  have hstream : w₁.writeStream [4, 5] (s₁.after other) = (.ok 2, w₂, s₂) := by
    rw [writeStream, hsecond]
    rfl
  have haccepts : Accepts (w₀, s₀) [1, 2, 3, 4, 5] (w₂, s₂) :=
    .stream (.flush (.elsewhere (.write .nothing hfirst) hother) rfl) hstream
  obtain ⟨hrepresents, -⟩ := represents_of_accepts hcreate haccepts
  have hchunk := hrepresents.chunks (by decide) 1 (by rw [hrepresents.committed]; decide)
  exact ⟨w₀, s₀, w₂, s₂, hcreate, haccepts, hrepresents.committed, hrepresents.buffer, hchunk⟩

end ChunkWriter

end ContentVault
