import ContentVault.ChunkReader
import ContentVault.Digest.Digester
import ContentVault.DigestUri
import ContentVault.FileTree

/-!
# Byte sources

Everything that bytes are read from: scripted inputs, files, values of chunk
stores, and sources whose bytes are also digested and counted on their way.  A
read may call on a chunk store, so reading passes on the state of all stores.

`drain` reads a source to its end.  Interrupted reads are tried again, and what
was read before a failure is kept.
-/

namespace ContentVault

open Digest (Digester)

abbrev StoreId := Nat

abbrev Stores := Std.ExtTreeMap StoreId ChunkStore

namespace Stores

def get (stores : Stores) (id : StoreId) : ChunkStore :=
  stores.getD id {}

/-- Lets an operation work on one store. -/
def update {α : Type} (stores : Stores) (id : StoreId)
    (operation : ChunkStore → α × ChunkStore) : α × Stores :=
  let (result, s) := operation (stores.get id)
  (result, stores.insert id s)

end Stores

inductive InputEvent where
  | data (bytes : Bytes)
  /-- One read that finds the end. -/
  | pause
  /-- One read that fails. -/
  | failure (error : IoError)

/-- An input that plays back events.  One read yields bytes of one event, at most
`limit` of them if a limit is set. -/
structure ScriptedInput where
  events : List InputEvent
  limit : Option Nat

namespace ScriptedInput

def readEvents (size : Nat) : List InputEvent → Except IoError Bytes × List InputEvent
  | [] => (.ok [], [])
  | .pause :: rest => (.ok [], rest)
  | .failure error :: rest => (.error error, rest)
  | .data bytes :: rest =>
    if bytes = [] then readEvents size rest
    else (.ok (bytes.take size), .data (bytes.drop size) :: rest)

def read (input : ScriptedInput) (size : Nat) : Except IoError Bytes × ScriptedInput :=
  let most := match input.limit with
    | some limit => min size limit
    | none => size
  let (result, events) := readEvents most input.events
  (result, { input with events := events })

def weightOf : List InputEvent → Nat
  | [] => 0
  | .data bytes :: rest => bytes.length + weightOf rest
  | .pause :: rest => weightOf rest
  | .failure _ :: rest => 1 + weightOf rest

theorem weightOf_readEvents (size : Nat) (events : List InputEvent) :
    (∀ bytes, (readEvents size events).1 = .ok bytes → bytes ≠ [] →
      weightOf (readEvents size events).2 < weightOf events) ∧
    (∀ error, (readEvents size events).1 = .error error →
      weightOf (readEvents size events).2 < weightOf events) := by
  induction events with
  | nil => exact ⟨fun bytes h hne => by cases h; exact absurd rfl hne, fun error h => by cases h⟩
  | cons event rest ih =>
    cases event with
    | pause =>
      exact ⟨fun bytes h hne => by cases h; exact absurd rfl hne, fun error h => by cases h⟩
    | failure error =>
      exact ⟨fun bytes h => (by cases h), fun _ _ => by simp only [readEvents, weightOf]; omega⟩
    | data bytes =>
      by_cases hbytes : bytes = []
      · simpa [readEvents, hbytes, weightOf] using ih
      · simp only [readEvents, if_neg hbytes, weightOf, List.length_drop]
        refine ⟨fun taken h hne => ?_, fun error h => by cases h⟩
        cases h
        have := List.length_pos_iff.2 hne
        rw [List.length_take] at this
        omega

end ScriptedInput

structure Tracker where
  digester : Digester
  count : UInt64

namespace Tracker

def start (digester : Digester) : Tracker := ⟨digester, 0⟩

def note (tracker : Tracker) (bytes : Bytes) : Tracker :=
  ⟨tracker.digester.update bytes, tracker.count + UInt64.ofNat bytes.length⟩

/-- Takes note of the outcome of a read; a failed one brings no bytes. -/
def noteRead (tracker : Tracker) (result : Except IoError Bytes) : Tracker :=
  match result with
  | .ok bytes => tracker.note bytes
  | .error _ => tracker

def digest (tracker : Tracker) : Bytes := tracker.digester.finalize

def uri (tracker : Tracker) : DigestUri :=
  DigestUri.ofDigest tracker.digester.name tracker.digest

end Tracker

inductive Source where
  | script (input : ScriptedInput)
  /-- A file, at the bytes that have not been read. -/
  | file (rest : Bytes)
  /-- A directory opened like a file: every read fails. -/
  | directory
  /-- A value of a chunk store. -/
  | chunks (store : StoreId) (reader : ChunkReader)
  /-- A source whose bytes are tracked. -/
  | tracked (inner : Source) (tracker : Tracker)

namespace Source

def ofBytes (bytes : Bytes) : Source :=
  .script ⟨[.data bytes], none⟩

def ofFile (tree : FileTree) (path : String) : Except FileFailure Source :=
  match tree.openFile path with
  | .error failure => .error failure
  | .ok none => .ok .directory
  | .ok (some content) => .ok (.file content)

/-- Tracks what is read from a source with a clone of the digester. -/
def track (source : Source) (digester : Digester) : Except VaultError Source :=
  match digester.clone with
  | .error error => .error error
  | .ok digester => .ok (.tracked source (Tracker.start digester))

def tracker? : Source → Option Tracker
  | .tracked _ tracker => some tracker
  | _ => none

/-- The source beneath the tracker, at the first byte that has not passed. -/
def inner : Source → Source
  | .tracked inner _ => inner
  | source => source

def read : Source → Nat → Stores → Except IoError Bytes × Source × Stores
  | .script input, size, stores =>
    let (result, input) := input.read size
    (result, .script input, stores)
  | .file rest, size, stores => (.ok (rest.take size), .file (rest.drop size), stores)
  | .directory, _, stores => (.error (.file .isADirectory), .directory, stores)
  | .chunks store reader, size, stores =>
    let ((result, reader), stores) := stores.update store fun s =>
      let (result, reader, s) := reader.read size s
      ((result, reader), s)
    (result, .chunks store reader, stores)
  | .tracked inner tracker, size, stores =>
    let (result, inner, stores) := inner.read size stores
    (result, .tracked inner (tracker.noteRead result), stores)

/-- How much the source can still yield: an amount that every read with bytes
and every interrupted read lessens. -/
def weight : Source → Nat
  | .script input => ScriptedInput.weightOf input.events
  | .file rest => rest.length
  | .directory => 0
  | .chunks _ reader => reader.weight
  | .tracked inner _ => inner.weight

/-- The outcome of a read after which a loop goes on: bytes, or an interruption. -/
def GoesOn : Except IoError Bytes → Prop
  | .ok bytes => bytes ≠ []
  | .error error => error.isInterrupted = true

theorem weight_read (source : Source) (size : Nat) (stores : Stores)
    (hgoes : GoesOn (source.read size stores).1) :
    (source.read size stores).2.1.weight < source.weight := by
  induction source with
  | script input =>
    have hweight := ScriptedInput.weightOf_readEvents
      (match input.limit with
        | some limit => min size limit
        | none => size) input.events
    simp only [read, ScriptedInput.read, weight] at hgoes ⊢
    generalize ScriptedInput.readEvents _ input.events = outcome at hgoes hweight ⊢
    obtain ⟨result, events⟩ := outcome
    cases result with
    | ok bytes => exact hweight.1 bytes rfl hgoes
    | error error => exact hweight.2 error rfl
  | file rest =>
    simp only [read, weight, GoesOn, List.length_drop] at hgoes ⊢
    have := List.length_pos_iff.2 hgoes
    rw [List.length_take] at this
    omega
  | directory => simp [read, GoesOn, IoError.isInterrupted, IoError.kind, FileFailure.kind] at hgoes
  | chunks store reader =>
    simp only [read, weight, Stores.update] at hgoes ⊢
    generalize hread : reader.read size (stores.get store) = outcome at hgoes ⊢
    obtain ⟨result, reader', s⟩ := outcome
    cases result with
    | ok bytes => exact ChunkReader.weight_read hread hgoes
    | error error =>
      simp only [GoesOn, ChunkReader.isInterrupted_of_read hread] at hgoes
      cases hgoes
  | tracked inner tracker ih => exact ih hgoes

structure Drained where
  /-- The bytes of each read, in order. -/
  pieces : List Bytes
  /-- The failure that ended the reading, if it did not come to the end. -/
  failure : Option IoError
  source : Source
  stores : Stores

def Drained.bytes (drained : Drained) : Bytes := drained.pieces.flatten

set_option linter.unusedVariables false in
/-- Reads on with `size` bytes at a time; `pieces` were read before, the last one
first. -/
def drainFrom (pieces : List Bytes) (source : Source) (size : Nat) (stores : Stores) : Drained :=
  match hread : source.read size stores with
  | (.ok [], after, stores) => ⟨pieces.reverse, none, after, stores⟩
  | (.ok (byte :: bytes), after, stores') =>
    drainFrom ((byte :: bytes) :: pieces) after size stores'
  | (.error error, after, stores') =>
    if hinterrupted : error.isInterrupted then drainFrom pieces after size stores'
    else ⟨pieces.reverse, some error, after, stores'⟩
termination_by source.weight
decreasing_by
  · have hweight := weight_read source size stores
    rw [hread] at hweight
    exact hweight (List.cons_ne_nil byte bytes)
  · have hweight := weight_read source size stores
    rw [hread] at hweight
    exact hweight hinterrupted

def drain (source : Source) (size : Nat) (stores : Stores) : Drained :=
  drainFrom [] source size stores

/-- Drains a source through a tracker, which comes along as it is then. -/
def drainTracked (source : Source) (tracker : Tracker) (size : Nat) (stores : Stores) :
    Drained × Tracker :=
  let drained := (tracked source tracker).drain size stores
  -- What is left of a tracked source is tracked, so the default is never taken.
  (drained, drained.source.tracker?.getD tracker)

end Source

end ContentVault
