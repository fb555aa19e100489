import ContentVault.Proofs.DigestStream
import ContentVault.Proofs.RefusedLoads
import ContentVault.Source

/-!
# Draining through a tracker

Through a tracker a source is drained as it would be without one, and in the end the tracker
has the digest and the number of all bytes that were read.
-/

namespace ContentVault

open ChunkReader (handedOut)
open Digest (Algorithm Digester)

namespace Tracker

/-- The tracker through which these bytes were handed out, with a digester that was fed some
others before. -/
def ofBytes (algorithm : Algorithm) (fed handed : Bytes) : Tracker :=
  ⟨Digester.ofMessage algorithm (fed ++ handed), UInt64.ofNat handed.length⟩

theorem start_fed_start (algorithm : Algorithm) (pieces : List Bytes) :
    start ((Digester.start algorithm).fed pieces) = ofBytes algorithm pieces.flatten [] := by
  rw [Digester.fed_start, start, ofBytes, List.append_nil]
  rfl

/-- A read that fails or brings nothing leaves the tracker as it is. -/
theorem noteRead_ofBytes (algorithm : Algorithm) (fed handed : Bytes)
    (outcome : Except IoError Bytes) :
    (ofBytes algorithm fed handed).noteRead outcome =
      ofBytes algorithm fed (handed ++ handedOut [outcome]) := by
  cases outcome with
  | error failure => rw [ChunkReader.handedOut_singleton_error, List.append_nil, noteRead]
  | ok bytes =>
    calc (ofBytes algorithm fed handed).noteRead (.ok bytes)
        = ⟨(Digester.ofMessage algorithm (fed ++ handed)).update bytes,
            UInt64.ofNat handed.length + UInt64.ofNat bytes.length⟩ := rfl
      _ = ofBytes algorithm fed (handed ++ bytes) := by
          rw [Digester.update_ofMessage, List.append_assoc, ← UInt64.ofNat_add,
            ← List.length_append]
          rfl
      _ = ofBytes algorithm fed (handed ++ handedOut [.ok bytes]) := by
          rw [ChunkReader.handedOut_singleton_ok]

end Tracker

namespace Source

section DrainFrom

variable {pieces : List Bytes} {source after : Source} {size : Nat} {stores stores' : Stores}

theorem drainFrom_of_nil (hread : source.read size stores = (.ok [], after, stores')) :
    drainFrom pieces source size stores = ⟨pieces.reverse, none, after, stores'⟩ := by
  rw [drainFrom]
  split <;> simp_all

theorem drainFrom_of_piece {byte : UInt8} {bytes : Bytes}
    (hread : source.read size stores = (.ok (byte :: bytes), after, stores')) :
    drainFrom pieces source size stores =
      drainFrom ((byte :: bytes) :: pieces) after size stores' := by
  rw [drainFrom]
  split <;> simp_all

theorem drainFrom_of_error {error : IoError}
    (hread : source.read size stores = (.error error, after, stores')) :
    drainFrom pieces source size stores =
      if error.isInterrupted then drainFrom pieces after size stores'
      else ⟨pieces.reverse, some error, after, stores'⟩ := by
  rw [drainFrom]
  split <;> simp_all

end DrainFrom

theorem read_tracked {source after : Source} {tracker : Tracker} {size : Nat}
    {stores stores' : Stores} {result : Except IoError Bytes}
    (hread : source.read size stores = (result, after, stores')) :
    (tracked source tracker).read size stores =
      (result, .tracked after (tracker.noteRead result), stores') := by
  rw [read, hread]

/-- Whatever was read before, draining goes on through a tracker as it would without, and the
tracker keeps up with the bytes. -/
theorem drainFrom_tracked (algorithm : Algorithm) (fed : Bytes) (pieces : List Bytes)
    (source : Source) (size : Nat) (stores : Stores) :
    drainFrom pieces (.tracked source (.ofBytes algorithm fed pieces.reverse.flatten)) size
        stores =
      let drained := drainFrom pieces source size stores
      { drained with source := .tracked drained.source (.ofBytes algorithm fed drained.bytes) } := by
  have hnote := Tracker.noteRead_ofBytes algorithm fed
  fun_induction drainFrom pieces source size stores with
  | case1 pieces source stores after stores' hread =>
    rw [drainFrom_of_nil (read_tracked hread), hnote, ChunkReader.handedOut_singleton_ok,
      List.append_nil]
    rfl
  | case2 pieces source stores byte bytes after stores' hread ih =>
    rw [drainFrom_of_piece (read_tracked hread), hnote, ChunkReader.handedOut_singleton_ok, ← ih,
      List.reverse_cons, List.flatten_append, List.flatten_singleton]
  | case3 pieces source stores error after stores' hread hinterrupted ih =>
    rw [drainFrom_of_error (read_tracked hread), if_pos hinterrupted, hnote,
      ChunkReader.handedOut_singleton_error, List.append_nil, ih]
  | case4 pieces source stores error after stores' hread hinterrupted =>
    rw [drainFrom_of_error (read_tracked hread), if_neg hinterrupted, hnote,
      ChunkReader.handedOut_singleton_error, List.append_nil]
    rfl

/-- Draining through a new tracker drains the source, and the tracker ends with the digest and
the number of its bytes. -/
theorem drainTracked_start (algorithm : Algorithm) (prefed : List Bytes) (source : Source)
    (size : Nat) (stores : Stores) :
    source.drainTracked (.start ((Digester.start algorithm).fed prefed)) size stores =
      let drained := source.drain size stores
      let tracker := Tracker.ofBytes algorithm prefed.flatten drained.bytes
      ({ drained with source := .tracked drained.source tracker }, tracker) := by
  have hdrain := drainFrom_tracked algorithm prefed.flatten [] source size stores
  rw [drainTracked, drain, Tracker.start_fed_start]
  rw [List.reverse_nil, List.flatten_nil] at hdrain
  rw [hdrain]
  rfl

end Source

end ContentVault
