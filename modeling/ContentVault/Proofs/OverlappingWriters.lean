import ContentVault.Proofs.AdmittedChunks
import ContentVault.Proofs.InertWriters
import ContentVault.Proofs.ValueReading
import Mathlib.Logic.Function.Basic

/-!
# Two writers of one key

Nothing keeps two writers of one key apart.  Each makes the calls of its own value in their
order, however the turns of the two alternate, so what lies under a key in the end was put
there by the last call for it.  A reader goes by the manifest that was stored last, and hands
out nothing but chunks of the one or the other value that stand at their own index.
-/

namespace ContentVault

instance (key : String) : DecidablePred (Call.Alters key) := fun call =>
  match call with
  | .load _ => isFalse (by rintro (⟨value, heq⟩ | heq) <;> cases heq)
  | .store key' value => decidable_of_iff (key' = key) (by simp [Call.Alters])
  | .remove key' => decidable_of_iff (key' = key) (by simp [Call.Alters])

/-- The last of the calls that changes what is under the key. -/
def lastCall? (key : String) (calls : List Call) : Option Call :=
  calls.reverse.find? (Call.Alters key ·)

section LastCall

variable {key : String} {calls before after : List Call} {call : Call} {value : Bytes}

theorem lastCall?_concat (key : String) (calls : List Call) (call : Call) :
    lastCall? key (calls ++ [call]) =
      if call.Alters key then some call else lastCall? key calls := by
  rw [lastCall?, List.reverse_append, List.reverse_singleton, List.singleton_append,
    List.find?_cons]
  by_cases halters : call.Alters key <;> simp [halters, lastCall?]

theorem lastCall?_append (hafter : ∀ call ∈ after, ¬call.Alters key) (before : List Call) :
    lastCall? key (before ++ after) = lastCall? key before := by
  induction after using List.reverseRecOn with
  | nil => rw [List.append_nil]
  | append_singleton after call ih =>
    rw [← List.append_assoc, lastCall?_concat,
      if_neg (hafter call (List.mem_append_right _ List.mem_cons_self)),
      ih fun call' hmem => hafter call' (List.mem_append_left _ hmem)]

theorem lastCall?_around (before : List Call) (halters : call.Alters key)
    (hafter : ∀ call ∈ after, ¬call.Alters key) :
    lastCall? key (before ++ call :: after) = some call := by
  rw [← List.singleton_append, ← List.append_assoc, lastCall?_append hafter, lastCall?_concat,
    if_pos halters]

theorem spec_of_lastCall? (hlast : lastCall? key calls = some call) :
    call ∈ calls ∧ call.Alters key := by
  rw [lastCall?] at hlast
  exact ⟨List.mem_reverse.1 (List.mem_of_find?_eq_some hlast),
    by simpa using List.find?_some hlast⟩

/-- Where every call is served, the last one for a key decides what is under it. -/
theorem ChunkStore.ServesAll.getElem?_afterAll {s : ChunkStore} (hserves : s.ServesAll)
    (hlast : lastCall? key calls = some call) :
    (s.afterAll calls).contents[key]? = (call.apply ∅)[key]? := by
  induction calls using List.reverseRecOn with
  | nil => cases hlast
  | append_singleton calls next ih =>
    have hserved : (s.afterAll calls).refusal? next = none := by
      rw [ChunkStore.refusal?, ChunkStore.plan_afterAll]
      exact hserves _ _
    rw [ChunkStore.afterAll_append, ChunkStore.afterAll_cons, ChunkStore.afterAll_nil,
      ChunkStore.contents_after_of_served _ _ hserved]
    rw [lastCall?_concat] at hlast
    split at hlast
    · rename_i halters
      cases hlast
      rcases halters with ⟨value, rfl⟩ | rfl <;> simp [Call.apply]
    · rename_i hkeeps
      rw [Call.getElem?_apply hkeeps, ih hlast]

end LastCall

/-! ### The calls of a layout -/

section Layout

variable {base : String} {chunkSize : ChunkSize} {value : Bytes} {recorded : Nat} {i : Nat}

theorem lastCall?_base_layoutCalls (base : String) (chunkSize : ChunkSize) (value : Bytes)
    (recorded : Nat) : lastCall? base (layoutCalls base chunkSize value recorded) =
      some (.store base (manifestOf chunkSize value).encode) := by
  rw [layoutCalls]
  refine lastCall?_around _ (.inl ⟨_, rfl⟩) fun call hmem halters => ?_
  obtain ⟨j, -, hkey⟩ := key_of_mem_removeCalls hmem
  exact chunkKey_ne_self base (.ofNat j) (hkey.symm.trans (Call.key_eq_of_alters halters))

/-- What a writer does with the key of a chunk is to store its own chunk there or, behind its
last one, to remove what is there. -/
theorem eq_of_mem_layoutCalls {call : Call} (hfits : value.length < UInt64.size)
    (hrecorded : recorded < UInt64.size) (hi : i < UInt64.size)
    (hmem : call ∈ layoutCalls base chunkSize value recorded)
    (halters : call.Alters (chunkKey base (.ofNat i))) :
    (i < chunkCount chunkSize.toNat value.length ∧
        call = chunkCall base chunkSize.toNat value i) ∨
      call = .remove (chunkKey base (.ofNat i)) := by
  have hkey := Call.key_eq_of_alters halters
  have hcount := chunkCount_lt chunkSize.toNat_pos hfits
  simp only [layoutCalls, List.mem_append, List.mem_cons, List.not_mem_nil, or_false] at hmem
  rcases hmem with ((rfl | rfl) | hmem) | rfl | hmem
  · exact absurd hkey.symm (chunkKey_ne_self base _)
  · exact absurd hkey.symm (chunkKey_ne_self base _)
  · obtain ⟨j, hj, rfl⟩ := List.mem_map.1 hmem
    rw [List.mem_range] at hj
    obtain rfl := (chunkKey_ofNat_inj (Nat.lt_trans hj hcount) hi).1 hkey
    exact .inl ⟨hj, rfl⟩
  · exact absurd hkey.symm (chunkKey_ne_self base _)
  · obtain ⟨j, hj, rfl⟩ := List.mem_map.1 hmem
    rw [List.mem_range'_1] at hj
    obtain rfl := (chunkKey_ofNat_inj (by omega) hi).1 hkey
    exact .inr rfl

theorem chunkCall_mem_layoutCalls (hi : i < chunkCount chunkSize.toNat value.length) :
    chunkCall base chunkSize.toNat value i ∈ layoutCalls base chunkSize value recorded := by
  obtain ⟨before, after, hcalls, -⟩ := layoutCalls_around_chunk base recorded hi
  rw [hcalls]
  exact List.mem_append_right _ List.mem_cons_self

end Layout

/-! ### Turns -/

/-- One of two writers. -/
inductive Side where
  | left
  | right
  deriving DecidableEq, Repr

def ofSide {α : Type} (side : Side) (tagged : List (Side × α)) : List α :=
  (tagged.filter fun entry => entry.1 = side).map Prod.snd

section OfSide

variable {α : Type} {side other : Side}

@[simp]
theorem ofSide_nil (side : Side) : ofSide side ([] : List (Side × α)) = [] := rfl

@[simp]
theorem ofSide_cons_self (side : Side) (entry : α) (tagged : List (Side × α)) :
    ofSide side ((side, entry) :: tagged) = entry :: ofSide side tagged := by
  simp [ofSide]

theorem ofSide_cons_of_ne (hne : other ≠ side) (entry : α) (tagged : List (Side × α)) :
    ofSide side ((other, entry) :: tagged) = ofSide side tagged := by
  simp [ofSide, hne]

theorem ofSide_append (side : Side) (tagged more : List (Side × α)) :
    ofSide side (tagged ++ more) = ofSide side tagged ++ ofSide side more := by
  simp [ofSide]

theorem ofSide_map_self (side : Side) (entries : List α) :
    ofSide side (entries.map fun entry => (side, entry)) = entries := by
  induction entries with
  | nil => rfl
  | cons entry entries ih => rw [List.map_cons, ofSide_cons_self, ih]

theorem ofSide_map_of_ne (hne : other ≠ side) (entries : List α) :
    ofSide side (entries.map fun entry => (other, entry)) = [] := by
  induction entries with
  | nil => rfl
  | cons entry entries ih => rw [List.map_cons, ofSide_cons_of_ne hne, ih]

theorem mem_ofSide_iff {entry : α} {tagged : List (Side × α)} :
    entry ∈ ofSide side tagged ↔ (side, entry) ∈ tagged := by
  simp [ofSide]

end OfSide

inductive WriterTurn where
  | begin
  | ask (call : WriterCall)
  | drop
  deriving DecidableEq, Repr

/-- A writer that is finished completes its value, and so does one that is dropped. -/
def WriterTurn.Completes (turn : WriterTurn) : Prop :=
  turn = .ask .finish ∨ turn = .drop

def feeds (inputs : List WriterInput) : List WriterTurn :=
  inputs.map fun input => .ask (.feed input)

/-- These are all turns of a writer: it is begun, takes its inputs and is completed.  It may be
asked for more afterwards. -/
def IsScript (inputs : List WriterInput) (turns : List WriterTurn) : Prop :=
  ∃ closing late, turns = .begin :: (feeds inputs ++ closing :: late) ∧ closing.Completes ∧
    .begin ∉ late

/-- The calls that were made between two states of a store, in order. -/
def ChunkStore.callsSince (s t : ChunkStore) : List Call :=
  ((t.history.take (t.history.length - s.history.length)).map Event.call).reverse

theorem ChunkStore.callsSince_afterAll (calls : List Call) (s : ChunkStore) :
    s.callsSince (s.afterAll calls) = calls := by
  rw [callsSince, history_afterAll, List.length_append, Nat.add_sub_cancel, List.take_left,
    List.map_reverse, List.reverse_reverse, map_call_events]

/-- A store, the writers that are at work on it, and the calls that each of them has made. -/
structure Overlap where
  store : ChunkStore
  writer : Side → Option ChunkWriter
  trace : List (Side × Call)

namespace Overlap

def start (s : ChunkStore) : Overlap where
  store := s
  writer := fun _ => none
  trace := []

/-- One side has had a turn, which has left this writer and this store. -/
def moved (o : Overlap) (side : Side) (w : Option ChunkWriter) (s : ChunkStore) : Overlap where
  store := s
  writer := Function.update o.writer side w
  trace := o.trace ++ (o.store.callsSince s).map fun call => (side, call)

def step (base : String) (chunkSize : Side → ChunkSize) (o : Overlap) :
    Side × WriterTurn → Overlap
  | (side, .begin) =>
    let (result, s) := ChunkWriter.create base (chunkSize side) o.store
    o.moved side result.toOption s
  | (side, .ask call) =>
    match o.writer side with
    | none => o
    | some w =>
      let (_, w, s) := call.perform w o.store
      o.moved side (some w) s
  | (side, .drop) =>
    match o.writer side with
    | none => o
    | some w => o.moved side none (w.drop o.store)

def run (base : String) (chunkSize : Side → ChunkSize) (turns : List (Side × WriterTurn))
    (o : Overlap) : Overlap :=
  turns.foldl (step base chunkSize) o

/-- One side has made these calls, and this is its writer now. -/
structure Moves (side : Side) (w : Option ChunkWriter) (calls : List Call) (o o' : Overlap) :
    Prop where
  store : o'.store = o.store.afterAll calls
  own : o'.writer side = w
  others : ∀ other, other ≠ side → o'.writer other = o.writer other
  trace : o'.trace = o.trace ++ calls.map fun call => (side, call)

variable {base : String} {chunkSize : ChunkSize} {value : Bytes} {o : Overlap} {side : Side}
  {s : ChunkStore} {calls : List Call} {turn : WriterTurn} {left : List WriterTurn}

theorem moves_moved (w : Option ChunkWriter) (hstore : s = o.store.afterAll calls) :
    Moves side w calls o (o.moved side w s) where
  store := hstore
  own := by simp [moved]
  others := fun _ hne => by simp [moved, hne]
  trace := by rw [moved, hstore, ChunkStore.callsSince_afterAll]

theorem moves_refl (o : Overlap) (side : Side) : Moves side (o.writer side) [] o o where
  store := rfl
  own := rfl
  others := fun _ _ => rfl
  trace := (List.append_nil _).symm

/-- How far a writer of a value has come: the writer, the calls it has made and its turns to
come. -/
inductive Phase (base : String) (chunkSize : ChunkSize) (value : Bytes) :
    Option ChunkWriter → List Call → List WriterTurn → Prop where
  | idle {turns : List WriterTurn} {inputs : List WriterInput}
      (hvalue : value = WriterInput.allData inputs) (hscript : IsScript inputs turns) :
      Phase base chunkSize value none [] turns
  | writing {inputs : List WriterInput} {closing : WriterTurn} {late : List WriterTurn}
      (replaced : UInt64) (accepted : Bytes)
      (hvalue : value = accepted ++ WriterInput.allData inputs) (hclosing : closing.Completes)
      (hlate : .begin ∉ late) :
      Phase base chunkSize value
        (some (ChunkWriter.writing base chunkSize replaced accepted))
        ([.load base, .remove base] ++ chunkCalls base chunkSize.toNat accepted
          (List.range (accepted.length / chunkSize.toNat)))
        (feeds inputs ++ closing :: late)
  | closed {w : Option ChunkWriter} {left : List WriterTurn} (replaced : UInt64)
      (hclosed : ∀ w', w = some w' → w'.state ≠ .writing) (hleft : .begin ∉ left) :
      Phase base chunkSize value w (layoutCalls base chunkSize value replaced.toNat) left

/-- A writer that is writing makes the calls for the chunks that its input fills. -/
theorem moves_feed (input : WriterInput) {replaced : UInt64} {accepted : Bytes}
    (hserves : o.store.ServesAll)
    (hwriter : o.writer side = some (ChunkWriter.writing base chunkSize replaced accepted))
    (chunkSizes : Side → ChunkSize) :
    Moves side
      (some (ChunkWriter.writing base chunkSize replaced (accepted ++ input.data)))
      (chunkCalls base chunkSize.toNat (accepted ++ input.data)
        (List.range' (accepted.length / chunkSize.toNat)
          ((accepted ++ input.data).length / chunkSize.toNat -
            accepted.length / chunkSize.toNat)))
      o (step base chunkSizes o (side, .ask (.feed input))) := by
  have hwrite := (ChunkWriter.write_writing base chunkSize replaced accepted input.data
    o.store).of_serves (hserves.servesWriting base)
  have hperform : (WriterCall.feed input).perform
      (ChunkWriter.writing base chunkSize replaced accepted) o.store =
        (input.taken, ChunkWriter.writing base chunkSize replaced (accepted ++ input.data),
          o.store.afterAll (chunkCalls base chunkSize.toNat (accepted ++ input.data)
            (List.range' (accepted.length / chunkSize.toNat)
              ((accepted ++ input.data).length / chunkSize.toNat -
                accepted.length / chunkSize.toNat)))) := by
    cases input with
    | write data => exact WriterCall.perform_of_write_ok (.inl rfl) hwrite
    | stream data => exact WriterCall.perform_of_write_ok (.inr rfl) hwrite
    | flush =>
      rw [WriterInput.data, List.append_nil, Nat.sub_self]
      rfl
  rw [step]
  simp only [hwriter, hperform]
  exact moves_moved _ rfl

theorem not_writing_of_none {w : ChunkWriter} (hnone : none = some w) : w.state ≠ .writing := by
  cases hnone

/-- A writer that is writing makes the calls of finishing when it is completed. -/
theorem moves_closing {closing : WriterTurn} {replaced : UInt64} (hclosing : closing.Completes)
    (hserves : o.store.ServesAll)
    (hwriter : o.writer side = some (ChunkWriter.writing base chunkSize replaced value))
    (chunkSizes : Side → ChunkSize) :
    ∃ w, (∀ w', w = some w' → w'.state ≠ .writing) ∧
      Moves side w (ChunkWriter.writing base chunkSize replaced value).finishCalls o
        (step base chunkSizes o (side, closing)) := by
  have hfinish := ChunkWriter.finish_of_serves (w := .writing base chunkSize replaced value) rfl
    (hserves.servesWriting base)
  rcases hclosing with rfl | rfl
  · refine ⟨some { (ChunkWriter.writing base chunkSize replaced value).complete with
      replaced := 0, state := .finished }, ?_, ?_⟩
    · intro w' heq
      rw [← Option.some.inj heq]
      exact WriterState.noConfusion
    · rw [step]
      simp only [hwriter, WriterCall.perform, hfinish]
      exact moves_moved _ rfl
  · refine ⟨none, fun _ => not_writing_of_none, ?_⟩
    rw [step]
    simp only [hwriter, ChunkWriter.drop_eq, hfinish]
    exact moves_moved _ rfl

/-- A writer that is closed makes no more calls. -/
theorem moves_closed (hturn : turn ≠ .begin)
    (hclosed : ∀ w, o.writer side = some w → w.state ≠ .writing) (chunkSizes : Side → ChunkSize) :
    ∃ w, (∀ w', w = some w' → w'.state ≠ .writing) ∧
      Moves side w [] o (step base chunkSizes o (side, turn)) := by
  cases hwriter : o.writer side with
  | none =>
    refine ⟨none, fun _ => not_writing_of_none, ?_⟩
    have hsame : step base chunkSizes o (side, turn) = o := by
      cases turn with
      | begin => exact absurd rfl hturn
      | ask call => simp only [step, hwriter]
      | drop => simp only [step, hwriter]
    rw [hsame, ← hwriter]
    exact moves_refl o side
  | some w =>
    have hstate := hclosed w hwriter
    cases turn with
    | begin => exact absurd rfl hturn
    | ask call =>
      obtain ⟨error, hensure⟩ := ChunkWriter.ensureWriting_of_not_writing hstate
      refine ⟨some w, fun w' heq => Option.some.inj heq ▸ hstate, ?_⟩
      simp only [step, hwriter, WriterCall.perform_of_not_writing hensure]
      exact moves_moved _ rfl
    | drop =>
      refine ⟨none, fun _ => not_writing_of_none, ?_⟩
      simp only [step, hwriter, WriterCall.drop_of_not_writing hstate]
      exact moves_moved _ rfl

/-- A turn takes a writer on from one phase to the next. -/
theorem Phase.step {chunkSizes : Side → ChunkSize} (hbuffer : (chunkSizes side).IsAllocatable)
    (hserves : o.store.ServesAll) (hfits : value.length < UInt64.size)
    (hphase : Phase base (chunkSizes side) value (o.writer side) calls (turn :: left)) :
    ∃ w new, Moves side w new o (step base chunkSizes o (side, turn)) ∧
      Phase base (chunkSizes side) value w (calls ++ new) left := by
  generalize hwriter : o.writer side = writer at hphase
  generalize hturns : turn :: left = turns at hphase
  cases hphase with
  | @idle _ inputs hvalue hscript =>
    obtain ⟨closing, late, rfl, hclosing, hlate⟩ := hscript
    cases hturns
    have hcreate := ChunkWriter.create_of_serves hbuffer (hserves.servesWriting base)
    have hmoves : Moves side
        (some (.writing base (chunkSizes side) (o.store.contents.recordedChunks base) []))
        [.load base, .remove base] o (Overlap.step base chunkSizes o (side, .begin)) := by
      simp only [Overlap.step, hcreate]
      exact moves_moved _ rfl
    refine ⟨_, _, hmoves, ?_⟩
    have hphase : Phase base (chunkSizes side) value _ _ _ :=
      .writing (o.store.contents.recordedChunks base) [] hvalue hclosing hlate
    rwa [List.length_nil, Nat.zero_div, List.range_zero] at hphase
  | @writing inputs closing late replaced accepted hvalue hclosing hlate =>
    cases inputs with
    | nil =>
      cases hturns
      rw [WriterInput.allData, List.flatMap_nil, List.append_nil] at hvalue
      subst hvalue
      obtain ⟨w, hclosed, hmoves⟩ := moves_closing hclosing hserves hwriter chunkSizes
      refine ⟨w, _, hmoves, ?_⟩
      have hcalls := ChunkWriter.finishCalls_writing base (chunkSizes side) replaced hfits
      rw [List.append_assoc, hcalls, ← List.append_assoc]
      exact .closed replaced hclosed hlate
    | cons input inputs =>
      cases hturns
      refine ⟨_, _, moves_feed input hserves hwriter chunkSizes, ?_⟩
      rw [List.append_assoc, chunkCalls_append]
      refine .writing replaced _ ?_ hclosing hlate
      rw [hvalue, List.append_assoc]
      rfl
  | closed replaced hclosed hleft =>
    cases hturns
    rw [List.mem_cons, not_or] at hleft
    obtain ⟨w, hclosed', hmoves⟩ : ∃ w, (∀ w', w = some w' → w'.state ≠ .writing) ∧
        Moves side w [] o (Overlap.step base chunkSizes o (side, turn)) :=
      moves_closed (Ne.symm hleft.1) (fun w hw => hclosed w (hwriter.symm.trans hw)) chunkSizes
    refine ⟨w, [], hmoves, ?_⟩
    rw [List.append_nil]
    exact .closed replaced hclosed' hleft.2

/-! ### Runs -/

/-- The store has served the calls of both sides in the order of the trace, and each side is in
a phase of its own value. -/
structure Underway (base : String) (chunkSize : Side → ChunkSize) (value : Side → Bytes)
    (s : ChunkStore) (turns : List (Side × WriterTurn)) (o : Overlap) : Prop where
  store : o.store = s.afterAll (o.trace.map Prod.snd)
  phase : ∀ side, Phase base (chunkSize side) (value side) (o.writer side) (ofSide side o.trace)
    (ofSide side turns)

section Underway

variable {chunkSizes : Side → ChunkSize} {values : Side → Bytes}
  {turns : List (Side × WriterTurn)} {key : String}

/-- Whichever side has its turn, the other stays in its phase. -/
theorem Underway.step {next : Side × WriterTurn}
    (hbuffers : ∀ side, (chunkSizes side).IsAllocatable) (hserves : s.ServesAll)
    (hfits : ∀ side, (values side).length < UInt64.size)
    (hunderway : Underway base chunkSizes values s (next :: turns) o) :
    Underway base chunkSizes values s turns (step base chunkSizes o next) := by
  obtain ⟨side, turn⟩ := next
  have hserves' : o.store.ServesAll := by
    rw [hunderway.store, ChunkStore.ServesAll, ChunkStore.plan_afterAll]
    exact hserves
  have hphase := hunderway.phase side
  rw [ofSide_cons_self] at hphase
  obtain ⟨w, new, hmoves, hnext⟩ := hphase.step (hbuffers side) hserves' (hfits side)
  constructor
  · have hcalls : (new.map fun call => (side, call)).map Prod.snd = new := by
      rw [List.map_map]
      exact List.map_id new
    rw [hmoves.store, hmoves.trace, hunderway.store, List.map_append, ChunkStore.afterAll_append,
      hcalls]
  · intro other
    rw [hmoves.trace, ofSide_append]
    by_cases hside : other = side
    · subst hside
      rw [hmoves.own, ofSide_map_self]
      exact hnext
    · have hother := hunderway.phase other
      rw [ofSide_cons_of_ne (Ne.symm hside)] at hother
      rw [hmoves.others other hside, ofSide_map_of_ne (Ne.symm hside), List.append_nil]
      exact hother

theorem Underway.run (hbuffers : ∀ side, (chunkSizes side).IsAllocatable) (hserves : s.ServesAll)
    (hfits : ∀ side, (values side).length < UInt64.size)
    (hunderway : Underway base chunkSizes values s turns o) :
    Underway base chunkSizes values s [] (run base chunkSizes turns o) := by
  induction turns generalizing o with
  | nil => exact hunderway
  | cons next turns ih => exact ih (hunderway.step hbuffers hserves hfits)

/-- Once all turns are taken, each side has made the calls of its layout. -/
theorem Underway.layout (hunderway : Underway base chunkSizes values s [] o) (side : Side) :
    ∃ replaced : UInt64, ofSide side o.trace =
      layoutCalls base (chunkSizes side) (values side) replaced.toNat := by
  have hphase := hunderway.phase side
  rw [ofSide_nil] at hphase
  generalize ofSide side o.trace = calls at hphase ⊢
  generalize o.writer side = w at hphase
  generalize hleft : ([] : List WriterTurn) = left at hphase
  cases hphase with
  | idle hvalue hscript =>
    obtain ⟨closing, late, rfl, -⟩ := hscript
    cases hleft
  | writing replaced accepted hvalue hclosing hlate =>
    exact absurd hleft.symm (List.append_ne_nil_of_right_ne_nil _ (List.cons_ne_nil _ _))
  | closed replaced hclosed hleft => exact ⟨replaced, rfl⟩

/-- The last call of the two sides that changes what is under the key, and whose it is. -/
def last? (key : String) (trace : List (Side × Call)) : Option (Side × Call) :=
  trace.reverse.find? fun made => made.2.Alters key

theorem last?_concat (key : String) (trace : List (Side × Call)) (made : Side × Call) :
    last? key (trace ++ [made]) = if made.2.Alters key then some made else last? key trace := by
  rw [last?, List.reverse_append, List.reverse_singleton, List.singleton_append, List.find?_cons]
  by_cases halters : made.2.Alters key <;> simp [halters, last?]

/-- The last call of all is the last one of the side that made it. -/
theorem lastCall?_of_last? {trace : List (Side × Call)} {call : Call}
    (hlast : last? key trace = some (side, call)) :
    lastCall? key (trace.map Prod.snd) = some call ∧
      lastCall? key (ofSide side trace) = some call := by
  induction trace using List.reverseRecOn with
  | nil => cases hlast
  | append_singleton trace made ih =>
    rw [List.map_append, List.map_singleton, lastCall?_concat, ofSide_append]
    rw [last?_concat] at hlast
    by_cases halters : made.2.Alters key
    · rw [if_pos halters, Option.some.injEq] at hlast
      subst hlast
      rw [if_pos halters, ofSide_cons_self, ofSide_nil, lastCall?_concat, if_pos halters]
      exact ⟨rfl, rfl⟩
    · rw [if_neg halters] at hlast
      obtain ⟨hall, hown⟩ := ih hlast
      rw [if_neg halters]
      refine ⟨hall, ?_⟩
      obtain ⟨who, call'⟩ := made
      by_cases hside : who = side
      · subst hside
        rw [ofSide_cons_self, ofSide_nil, lastCall?_concat, if_neg halters, hown]
      · rw [ofSide_cons_of_ne hside, ofSide_nil, List.append_nil, hown]

theorem exists_last? {trace : List (Side × Call)} {call : Call}
    (hmem : call ∈ ofSide side trace) (halters : call.Alters key) :
    ∃ who last, last? key trace = some (who, last) := by
  have hsome : (last? key trace).isSome := List.find?_isSome.2
    ⟨(side, call), List.mem_reverse.2 (mem_ofSide_iff.1 hmem), decide_eq_true halters⟩
  obtain ⟨⟨who, last⟩, hlast⟩ := Option.isSome_iff_exists.1 hsome
  exact ⟨who, last, hlast⟩

/-- What the last call for a key has left is there in the end. -/
theorem Underway.held (hserves : s.ServesAll) {call : Call}
    (hunderway : Underway base chunkSizes values s turns o)
    (hlast : last? key o.trace = some (side, call)) :
    o.store.contents[key]? = (call.apply ∅)[key]? := by
  rw [hunderway.store]
  exact hserves.getElem?_afterAll (lastCall?_of_last? hlast).1

/-- The manifest is that of the side that was completed last. -/
theorem Underway.manifest (hserves : s.ServesAll)
    (hunderway : Underway base chunkSizes values s [] o) :
    ∃ last, last? base o.trace =
        some (last, .store base (manifestOf (chunkSizes last) (values last)).encode) ∧
      o.store.contents[base]? = some (manifestOf (chunkSizes last) (values last)).encode := by
  obtain ⟨replaced, hlayout⟩ := hunderway.layout .left
  have hstored := spec_of_lastCall?
    (lastCall?_base_layoutCalls base (chunkSizes .left) (values .left) replaced.toNat)
  rw [← hlayout] at hstored
  obtain ⟨last, call, hlast⟩ := exists_last? hstored.1 hstored.2
  obtain ⟨-, hown⟩ := lastCall?_of_last? hlast
  obtain ⟨replaced', hlayout'⟩ := hunderway.layout last
  rw [hlayout', lastCall?_base_layoutCalls, Option.some.injEq] at hown
  subst hown
  refine ⟨last, hlast, (hunderway.held hserves hlast).trans ?_⟩
  rw [Call.apply, Std.ExtTreeMap.getElem?_insert_self]

/-- Where a side has stored a chunk, there is in the end the chunk that was stored last, unless
it was removed. -/
theorem Underway.chunk (hserves : s.ServesAll)
    (hfits : ∀ side, (values side).length < UInt64.size)
    (hunderway : Underway base chunkSizes values s [] o) {i : Nat}
    (hi : i < chunkCount (chunkSizes side).toNat (values side).length) :
    (∃ who, last? (chunkKey base (.ofNat i)) o.trace =
        some (who, chunkCall base (chunkSizes who).toNat (values who) i) ∧
      o.store.contents[chunkKey base (.ofNat i)]? =
        some (piece (chunkSizes who).toNat (values who) i)) ∨
    o.store.contents[chunkKey base (.ofNat i)]? = none := by
  obtain ⟨replaced, hlayout⟩ := hunderway.layout side
  have hstored : chunkCall base _ _ i ∈ layoutCalls base _ _ replaced.toNat :=
    chunkCall_mem_layoutCalls hi
  rw [← hlayout] at hstored
  obtain ⟨who, call, hlast⟩ := exists_last? hstored (.inl ⟨_, rfl⟩)
  obtain ⟨-, hown⟩ := lastCall?_of_last? hlast
  have hheld := hunderway.held hserves hlast
  obtain ⟨replaced', hlayout'⟩ := hunderway.layout who
  rw [hlayout'] at hown
  obtain ⟨hmem, halters⟩ := spec_of_lastCall? hown
  have hindex := Nat.lt_trans hi (chunkCount_lt (chunkSizes side).toNat_pos (hfits side))
  rcases eq_of_mem_layoutCalls (hfits who) replaced'.toNat_lt hindex hmem halters with
    ⟨-, rfl⟩ | rfl
  · refine .inl ⟨who, hlast, hheld.trans ?_⟩
    rw [chunkCall, Call.apply, Std.ExtTreeMap.getElem?_insert_self]
  · refine .inr (hheld.trans ?_)
    rw [Call.apply, Std.ExtTreeMap.getElem?_erase_self]

end Underway

/-- What is read once both sides have got a writer and completed it: a corrupt sequence, or as
many bytes as the side has taken that was completed last, where each chunk is that of the side
that stored it last.  Where that is the same side for all chunks, its value is read. -/
theorem reads_of_overlap (base : String) (chunkSizes : Side → ChunkSize)
    (inputs : Side → List WriterInput) (turns : List (Side × WriterTurn)) (s : ChunkStore)
    (sizes : Nat → Nat) (hbuffers : ∀ side, (chunkSizes side).IsAllocatable)
    (hserves : s.ServesAll) (hscript : ∀ side, IsScript (inputs side) (ofSide side turns))
    (hfits : ∀ side, (WriterInput.allData (inputs side)).length < UInt64.size)
    (hsizes : ∀ turn, 0 < sizes turn) :
    let value (side : Side) := WriterInput.allData (inputs side)
    let o := run base chunkSizes turns (start s)
    ∃ last, last? base o.trace =
        some (last, .store base (manifestOf (chunkSizes last) (value last)).encode) ∧
      ((∃ bytes corruption, readValue sizes base o.store =
          .broken bytes (.carrying .other (.corruptChunkSequence base corruption))) ∨
        ∃ bytes, readValue sizes base o.store = .complete bytes ∧
          bytes.length = (value last).length ∧
          ∀ i < chunkCount (chunkSizes last).toNat (value last).length, ∃ who,
            last? (chunkKey base (.ofNat i)) o.trace =
                some (who, chunkCall base (chunkSizes who).toNat (value who) i) ∧
              piece (chunkSizes last).toNat bytes i =
                piece (chunkSizes who).toNat (value who) i) ∧
      ((∀ i < chunkCount (chunkSizes last).toNat (value last).length,
          last? (chunkKey base (.ofNat i)) o.trace =
            some (last, chunkCall base (chunkSizes last).toNat (value last) i)) →
        readValue sizes base o.store = .complete (value last)) := by
  intro value o
  have hstart : Underway base chunkSizes value s turns (start s) :=
    ⟨rfl, fun side => .idle rfl (hscript side)⟩
  have hdone := hstart.run hbuffers hserves hfits
  obtain ⟨last, hlast, hmanifest⟩ := hdone.manifest hserves
  have hcount := toNat_chunks_manifestOf (chunkSizes last) (hfits last)
  have hloads : o.store.ServesLoads := by
    rw [hdone.store, ChunkStore.ServesLoads, ChunkStore.plan_afterAll]
    exact fun tally key => hserves tally _
  refine ⟨last, hlast, ?_, fun hown => ?_⟩
  · have hrecords : o.store.contents.Records base (manifestOf (chunkSizes last) (value last)) :=
      ⟨⟨_, hmanifest, Manifest.decode_encode _⟩, (chunkSizes last).bytes_ne_zero⟩
    rcases readValue_of_records hsizes hloads hrecords
      (Manifest.room_manifestOf (chunkSizes last) (hfits last)) with
      hbroken | ⟨bytes, hcomplete, hlength, hchunks⟩
    · exact .inl hbroken
    · refine .inr ⟨bytes, hcomplete, ?_, fun i hi => ?_⟩
      · exact hlength.trans (UInt64.toNat_ofNat_of_lt' (hfits last))
      · have hheld := hchunks i (hcount.symm ▸ hi)
        rcases hdone.chunk hserves hfits hi with ⟨who, hwho, hstored⟩ | hnone
        · exact ⟨who, hwho, Option.some.inj (hheld.symm.trans hstored)⟩
        · cases hheld.symm.trans hnone
  · apply readValue_of_holdsValue hsizes hloads ⟨hmanifest, fun i hi => ?_⟩ (hfits last)
    rw [UInt64.lt_iff_toNat_lt, hcount] at hi
    have hheld := hdone.held hserves (hown i.toNat hi)
    rw [UInt64.ofNat_toNat] at hheld
    rw [hheld, chunkCall, UInt64.ofNat_toNat, Call.apply, Std.ExtTreeMap.getElem?_insert_self]

/-- Both sides write two chunks of one byte. -/
def pairInputs : Side → List WriterInput
  | .left => [.write [1], .write [2]]
  | .right => [.write [8, 9]]

/-- The right side is begun second and completed before the left one takes anything. -/
def nestedTurns : List (Side × WriterTurn) :=
  [(.left, .begin), (.right, .begin), (.right, .ask (.feed (.write [8, 9]))),
    (.right, .ask .finish), (.left, .ask (.feed (.write [1]))),
    (.left, .ask (.feed (.write [2]))), (.left, .ask .finish), (.left, .drop)]

/-- The left side has stored both chunks last, so its value is read. -/
theorem reads_of_overlap_nestedTurns :
    readValue (fun _ => 1) "k"
      (run "k" (fun _ => ⟨1, by decide⟩) nestedTurns (start {})).store = .complete [1, 2] := by
  have hscript (side : Side) : IsScript (pairInputs side) (ofSide side nestedTurns) := by
    cases side with
    | left => exact ⟨.ask .finish, [.drop], rfl, .inl rfl, by decide⟩
    | right => exact ⟨.ask .finish, [], rfl, .inl rfl, by decide⟩
  obtain ⟨last, hlast, -, hown⟩ := reads_of_overlap "k" (fun _ => ⟨1, by decide⟩) pairInputs
    nestedTurns {} (fun _ => 1) (fun _ => by decide) (fun _ _ => rfl) hscript
    (fun side => by cases side <;> decide) fun _ => Nat.one_pos
  obtain rfl : last = .left := by
    have hside : (last? "k" (run "k" (fun _ => ⟨1, by decide⟩) nestedTurns (start {})).trace).map
        Prod.fst = some .left := by decide +kernel
    rw [hlast] at hside
    exact Option.some.inj hside
  apply hown
  decide +kernel

/-- The right side is completed while the left one is between its chunks. -/
def crossedTurns : List (Side × WriterTurn) :=
  [(.left, .begin), (.right, .begin), (.left, .ask (.feed (.write [1]))),
    (.right, .ask (.feed (.write [8, 9]))), (.right, .ask .finish),
    (.left, .ask (.feed (.write [2]))), (.left, .drop)]

/-- A reader is handed the first chunk of the right side and the second one of the left side,
which is the value of neither. -/
theorem mixes_crossedTurns :
    (∀ side, IsScript (pairInputs side) (ofSide side crossedTurns)) ∧
      ({} : ChunkStore).ServesAll ∧
      readValue (fun _ => 1) "k"
          (run "k" (fun _ => ⟨1, by decide⟩) crossedTurns (start {})).store = .complete [8, 2] ∧
      ∀ side, WriterInput.allData (pairInputs side) ≠ [8, 2] := by
  have hscript (side : Side) : IsScript (pairInputs side) (ofSide side crossedTurns) := by
    cases side with
    | left => exact ⟨.drop, [], rfl, .inr rfl, List.not_mem_nil⟩
    | right => exact ⟨.ask .finish, [], rfl, .inl rfl, List.not_mem_nil⟩
  refine ⟨hscript, fun _ _ => rfl, ?_, fun side => by cases side <;> decide⟩
  let o := run "k" (fun _ => ⟨1, by decide⟩) crossedTurns (start {})
  have hrecords : o.store.contents.Records "k" ⟨2, 2, 1⟩ :=
    ⟨⟨_, by decide +kernel, Manifest.decode_encode _⟩, by decide⟩
  have hchunks : o.store.contents.BeginsWith "k" ⟨2, 2, 1⟩ [[8], [2]] :=
    Contents.beginsWith_pair (by decide) ⟨by decide +kernel, by decide⟩
      ⟨by decide +kernel, by decide⟩
  exact readValue_of_complete (fun _ => Nat.one_pos) (fun _ _ => rfl) hrecords hchunks rfl rfl

end Overlap

end ContentVault
