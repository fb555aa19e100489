import ContentVault.Proofs.FixityCheck

/-!
# Reading through a tracker

A tracked source is read like the source beneath it: each read has the outcome that it would
have had without the tracker, and leaves the same source behind.  At every moment the tracker
shows the number and the digest of the bytes handed out so far, however often it is looked at.
-/

namespace ContentVault

open ChunkReader (handedOut handedOut_append)
open Digest (Algorithm Digester)

/-- What a tracker shows when it is looked at. -/
structure Sight where
  count : UInt64
  digest : Bytes
  uri : DigestUri

/-- The sight is that of a tracker through which these bytes were handed out, with a digester
that was fed some others before. -/
structure Sight.Shows (sight : Sight) (algorithm : Algorithm) (fed handed : Bytes) : Prop where
  count : handed.length < UInt64.size → sight.count.toNat = handed.length
  digest : sight.digest = algorithm.hash (fed ++ handed)
  uri : sight.uri = DigestUri.ofDigest algorithm.name (algorithm.hash (fed ++ handed))

namespace Tracker

def sight (tracker : Tracker) : Sight := ⟨tracker.count, tracker.digest, tracker.uri⟩

theorem shows_sight_ofBytes (algorithm : Algorithm) (fed handed : Bytes) :
    (ofBytes algorithm fed handed).sight.Shows algorithm fed handed where
  count := UInt64.toNat_ofNat_of_lt'
  digest := rfl
  uri := rfl

end Tracker

/-! ### What is left in a source -/

namespace ScriptedInput

/-- The bytes that events bring, whether or not a pause or a failure stands between them. -/
def bytesOf (events : List InputEvent) : Bytes :=
  events.flatMap fun
    | .data bytes => bytes
    | _ => []

theorem bytesOf_readEvents (size : Nat) (events : List InputEvent) :
    bytesOf events =
      handedOut [(readEvents size events).1] ++ bytesOf (readEvents size events).2 := by
  induction events with
  | nil => rfl
  | cons event rest ih =>
    cases event with
    | pause => rfl
    | failure error => rfl
    | data bytes =>
      rw [readEvents]
      split
      · rename_i hbytes
        rw [hbytes, ← ih]
        rfl
      · rw [ChunkReader.handedOut_singleton_ok]
        simp only [bytesOf, List.flatMap_cons]
        rw [← List.append_assoc, List.take_append_drop]

end ScriptedInput

namespace Source

def sight? (source : Source) : Option Sight := source.tracker?.map Tracker.sight

/-- The bytes that have not been read of a source, unless it is a store that holds them. -/
def left? : Source → Option Bytes
  | .script input => some (ScriptedInput.bytesOf input.events)
  | .file rest => some rest
  | .directory => some []
  | .chunks _ _ => none
  | .tracked inner _ => inner.left?

theorem left?_read {source : Source} {content : Bytes} (hleft : source.left? = some content)
    (size : Nat) (stores : Stores) :
    ∃ rest, (source.read size stores).2.1.left? = some rest ∧
      content = handedOut [(source.read size stores).1] ++ rest := by
  induction source with
  | script input =>
    cases hleft
    exact ⟨_, rfl, ScriptedInput.bytesOf_readEvents _ input.events⟩
  | file bytes =>
    cases hleft
    refine ⟨content.drop size, rfl, ?_⟩
    rw [read, ChunkReader.handedOut_singleton_ok, List.take_append_drop]
  | directory =>
    cases hleft
    exact ⟨[], rfl, rfl⟩
  | chunks store reader => cases hleft
  | tracked inner tracker ih => exact ih hleft

end Source

/-! ### Consumers -/

/-- A consumer of a source: the outcomes of its reads, and what each look has shown, beside the
number of reads before it. -/
structure Consumer where
  source : Source
  stores : Stores
  outcomes : List (Except IoError Bytes)
  looks : List (Nat × Option Sight)

namespace Consumer

def start (source : Source) (stores : Stores) : Consumer := ⟨source, stores, [], []⟩

inductive Turn where
  /-- At most so many bytes are asked for. -/
  | read (size : Nat)
  | look
  /-- Someone else has changed the stores. -/
  | others (change : Stores → Stores)

/-- The turns other than looks. -/
def withoutLooks (turns : List Turn) : List Turn :=
  turns.filter fun
    | .look => false
    | _ => true

def step (c : Consumer) : Turn → Consumer
  | .read size =>
    let (outcome, source, stores) := c.source.read size c.stores
    { c with source := source, stores := stores, outcomes := c.outcomes ++ [outcome] }
  | .look => { c with looks := c.looks ++ [(c.outcomes.length, c.source.sight?)] }
  | .others change => { c with stores := change c.stores }

def run (turns : List Turn) (c : Consumer) : Consumer :=
  turns.foldl step c

/-- The consumer reads through a tracker what another one reads without it, and has never been
shown anything but what its reads had come to. -/
structure Follows (algorithm : Algorithm) (fed : Bytes) (c plain : Consumer) : Prop where
  outcomes : c.outcomes = plain.outcomes
  stores : c.stores = plain.stores
  source : c.source = .tracked plain.source (Tracker.ofBytes algorithm fed (handedOut c.outcomes))
  looks : ∀ reads seen, (reads, seen) ∈ c.looks → reads ≤ c.outcomes.length ∧
    ∃ sight, seen = some sight ∧ sight.Shows algorithm fed (handedOut (c.outcomes.take reads))

section Follows

variable {algorithm : Algorithm} {fed : Bytes} {c plain : Consumer}

theorem Follows.sight (hfollows : Follows algorithm fed c plain) :
    ∃ sight, c.source.sight? = some sight ∧
      sight.Shows algorithm fed (handedOut c.outcomes) := by
  rw [hfollows.source]
  exact ⟨_, rfl, Tracker.shows_sight_ofBytes algorithm fed _⟩

theorem Follows.read (hfollows : Follows algorithm fed c plain) (size : Nat) :
    Follows algorithm fed (c.step (.read size)) (plain.step (.read size)) := by
  have hread : c.source.read size c.stores =
      ((plain.source.read size plain.stores).1,
        .tracked (plain.source.read size plain.stores).2.1
          (Tracker.ofBytes algorithm fed (handedOut
            (c.outcomes ++ [(plain.source.read size plain.stores).1]))),
        (plain.source.read size plain.stores).2.2) := by
    rw [handedOut_append, ← Tracker.noteRead_ofBytes, hfollows.source, hfollows.stores]
    rfl
  constructor
  · simp only [step, hread, hfollows.outcomes]
  · simp only [step, hread]
  · simp only [step, hread]
  · intro reads seen hmem
    obtain ⟨hle, hshows⟩ := hfollows.looks reads seen hmem
    simp only [step, List.length_append, List.take_append_of_le_length hle]
    exact ⟨Nat.le_add_right_of_le hle, hshows⟩

theorem Follows.look (hfollows : Follows algorithm fed c plain) :
    Follows algorithm fed (c.step .look) plain where
  outcomes := hfollows.outcomes
  stores := hfollows.stores
  source := hfollows.source
  looks := by
    intro reads seen hmem
    rcases List.mem_append.1 hmem with hmem | hmem
    · exact hfollows.looks reads seen hmem
    · cases List.mem_singleton.1 hmem
      simp only [step, List.take_length]
      exact ⟨Nat.le_refl _, hfollows.sight⟩

theorem Follows.others (hfollows : Follows algorithm fed c plain) (change : Stores → Stores) :
    Follows algorithm fed (c.step (.others change)) (plain.step (.others change)) where
  outcomes := hfollows.outcomes
  stores := congrArg change hfollows.stores
  source := hfollows.source
  looks := hfollows.looks

/-- Whatever its turns are, the consumer follows one that never looks. -/
theorem Follows.run (hfollows : Follows algorithm fed c plain) (turns : List Turn) :
    Follows algorithm fed (c.run turns) (plain.run (withoutLooks turns)) := by
  induction turns generalizing c plain with
  | nil => exact hfollows
  | cons turn turns ih =>
    cases turn with
    | read size => exact ih (hfollows.read size)
    | look => exact ih hfollows.look
    | others change => exact ih (hfollows.others change)

end Follows

/-- The bytes handed out to the consumer and those left in its source are all there ever
were. -/
def Splits (content : Bytes) (c : Consumer) : Prop :=
  ∃ rest, c.source.left? = some rest ∧ content = handedOut c.outcomes ++ rest

section Splits

variable {content : Bytes} {c : Consumer}

theorem Splits.step (hsplits : Splits content c) (turn : Turn) : Splits content (c.step turn) := by
  obtain ⟨rest, hleft, hcontent⟩ := hsplits
  cases turn with
  | read size =>
    obtain ⟨rest', hleft', hrest⟩ := Source.left?_read hleft size c.stores
    refine ⟨rest', hleft', ?_⟩
    calc content = handedOut c.outcomes ++
          (handedOut [(c.source.read size c.stores).1] ++ rest') := by rw [hcontent, hrest]
      _ = handedOut (c.outcomes ++ [(c.source.read size c.stores).1]) ++ rest' := by
          rw [handedOut_append, List.append_assoc]
  | look => exact ⟨rest, hleft, hcontent⟩
  | others change => exact ⟨rest, hleft, hcontent⟩

theorem Splits.run (hsplits : Splits content c) (turns : List Turn) :
    Splits content (c.run turns) := by
  induction turns generalizing c with
  | nil => exact hsplits
  | cons turn turns ih => exact ih (hsplits.step turn)

end Splits

/-- A consumer who reads through a tracker gets what one gets who reads the source itself and
never looks.  What looks show at any time is decided by the bytes handed out before, the source
beneath is at the first byte not yet handed out, and the digester that was handed in still has
the digest of what it was fed. -/
theorem follows_of_track (algorithm : Algorithm) (prefed : List Bytes) (source : Source)
    (stores : Stores) (turns : List Turn) :
    let digester := (Digester.start algorithm).fed prefed
    ∃ tracked, source.track digester = .ok tracked ∧
      let plain := (start source stores).run (withoutLooks turns)
      let c := (start tracked stores).run turns
      c.outcomes = plain.outcomes ∧ c.stores = plain.stores ∧ c.source.inner = plain.source ∧
        (∃ sight, c.source.sight? = some sight ∧
          sight.Shows algorithm prefed.flatten (handedOut c.outcomes)) ∧
        (∀ reads seen, (reads, seen) ∈ c.looks → ∃ sight, seen = some sight ∧
          sight.Shows algorithm prefed.flatten (handedOut (c.outcomes.take reads))) ∧
        (∀ content, source.left? = some content →
          ∃ rest, c.source.inner.left? = some rest ∧ content = handedOut c.outcomes ++ rest) ∧
        digester.finalize = algorithm.hash prefed.flatten := by
  intro digester
  have htrack : source.track digester =
      .ok (.tracked source (Tracker.ofBytes algorithm prefed.flatten [])) := by
    rw [← Tracker.start_fed_start, Source.track, Digester.clone_fed_start]
  refine ⟨_, htrack, ?_⟩
  intro plain c
  have hfollows : Follows algorithm prefed.flatten c plain := by
    apply Follows.run
    exact ⟨rfl, rfl, rfl, fun _ _ hmem => absurd hmem List.not_mem_nil⟩
  have hinner : c.source.inner = plain.source := by
    rw [hfollows.source]
    rfl
  refine ⟨hfollows.outcomes, hfollows.stores, hinner, hfollows.sight, ?_, ?_,
    Digester.finalize_fed_start algorithm prefed⟩
  · exact fun reads seen hmem => (hfollows.looks reads seen hmem).2
  · intro content hleft
    have hstart : Splits content (start source stores) := ⟨content, hleft, rfl⟩
    rw [hinner, hfollows.outcomes]
    exact hstart.run (withoutLooks turns)

def haltingScript : ScriptedInput :=
  ⟨[.data [1, 2, 3], .failure (.plain .interrupted), .pause, .failure (.plain .timedOut),
    .data [4, 5]], none⟩

/-- Four bytes are read of the script, past its pause and its failures, and a fifth is left. -/
theorem follows_of_track_haltingScript :
    ∃ tracked, (Source.script haltingScript).track ((Digester.start .sha1).fed [[9]]) =
        .ok tracked ∧
      let c := (start tracked ∅).run
        [.read 2, .look, .read 0, .read 7, .read 7, .look, .look, .read 7, .read 7, .read 1]
      handedOut c.outcomes = [1, 2, 3, 4] ∧ c.source.inner.left? = some [5] ∧
        (∀ reads seen, (reads, seen) ∈ c.looks → ∃ sight, seen = some sight ∧
          sight.Shows .sha1 [9] (handedOut (c.outcomes.take reads))) ∧
        ∃ sight, c.source.sight? = some sight ∧ sight.count.toNat = 4 ∧
          sight.digest = Algorithm.sha1.hash [9, 1, 2, 3, 4] := by
  obtain ⟨tracked, htrack, houtcomes, -, -, ⟨sight, hsight, hshows⟩, hlooks, hleft, -⟩ :=
    follows_of_track .sha1 [[9]] (.script haltingScript) ∅
      [.read 2, .look, .read 0, .read 7, .read 7, .look, .look, .read 7, .read 7, .read 1]
  have hhanded := congrArg handedOut houtcomes
  refine ⟨tracked, htrack, ?_⟩
  intro c
  change handedOut c.outcomes = [1, 2, 3, 4] at hhanded
  rw [hhanded] at hshows
  obtain ⟨rest, hrest, hcontent⟩ := hleft [1, 2, 3, 4, 5] rfl
  rw [hhanded] at hcontent
  cases hcontent
  exact ⟨hhanded, hrest, hlooks, sight, hsight, hshows.count (by decide), hshows.digest⟩

end Consumer

end ContentVault
