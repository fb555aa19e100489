import ContentVault.Fixity
import ContentVault.Proofs.SourceDelivery
import ContentVault.Proofs.TrackedDraining

/-!
# What a fixity check observes

A fixity check sees exactly the bytes that any consumer of the entry would read, and
reports on them only if the consumer would come to their end.  Otherwise it fails, and
its error tells whether the digester, the opening or a read was the cause.
-/

namespace ContentVault

open Digest (Algorithm Digester)

/-- The errors that reading a value of a chunk store can come to. -/
inductive VaultError.OfReader : VaultError → Prop where
  | backendUnavailable (source : StorageError) : OfReader (.backendUnavailable source)
  | corruptChunkSequence (key : String) (corruption : Corruption) :
      OfReader (.corruptChunkSequence key corruption)

/-- Such an error comes through a byte stream unharmed. -/
theorem VaultError.OfReader.carried?_toStream {error : VaultError} (herror : error.OfReader) :
    error.toStream.carried? = some error := by
  cases herror <;> rfl

namespace ChunkReader

theorem ofReader_of_nextChunk {r : ChunkReader} {s s' : ChunkStore} {error : VaultError}
    (hnext : r.nextChunk s = (.error error, s')) : error.OfReader := by
  rcases nextChunk_cases r s with heq | ⟨error, t, heq, -, herror⟩ | ⟨chunk, t, heq, -⟩ <;>
    rw [hnext] at heq <;> cases heq
  rcases herror with ⟨source, rfl⟩ | ⟨corruption, rfl⟩
  · exact .backendUnavailable source
  · exact .corruptChunkSequence r.base corruption

theorem ofReader_of_beyond {r : ChunkReader} {s : ChunkStore} {error : VaultError}
    (hbeyond : (r.beyond s).2 = some error) : error.OfReader := by
  fun_induction beyond r s with
  | case1 r s error' s' hnext =>
    cases hbeyond
    exact ofReader_of_nextChunk hnext
  | case2 => cases hbeyond
  | case3 r s chunk s' hnext rest ih => exact ih hbeyond

end ChunkReader

namespace FixityResult

section Status

variable (result : FixityResult)

theorem success_mem_status_iff : .success ∈ result.status ↔
    result.computedDigest = result.expectedDigest ∧
      result.computedSize = result.expectedSize := by
  rw [status]
  split <;> split <;> simp_all

theorem badChecksum_mem_status_iff : .badChecksum ∈ result.status ↔
    result.computedDigest ≠ result.expectedDigest := by
  rw [status]
  split <;> split <;> simp_all

theorem badSize_mem_status_iff : .badSize ∈ result.status ↔
    result.computedSize ≠ result.expectedSize := by
  rw [status]
  split <;> split <;> simp_all

theorem nodup_status : result.status.Nodup := by
  rw [status]
  split <;> split <;> simp

end Status

/-- The result is about these bytes of the entry: it has their digest and their number,
and a flag for each of the two that differs from what was expected, or the flag of
success. -/
structure ReportsOn (result : FixityResult) (entry : Entry) (expected : DigestUri)
    (expectedSize : UInt64) (computed : DigestUri) (bytes : Bytes) : Prop where
  entry_eq : result.entry = entry
  expectedDigest_eq : result.expectedDigest = expected
  expectedSize_eq : result.expectedSize = expectedSize
  computedDigest_eq : result.computedDigest = computed
  computedSize_eq : result.computedSize.toNat = bytes.length
  success_iff : .success ∈ result.status ↔ expected = computed ∧ expectedSize.toNat = bytes.length
  badChecksum_iff : .badChecksum ∈ result.status ↔ expected ≠ computed
  badSize_iff : .badSize ∈ result.status ↔ expectedSize.toNat ≠ bytes.length
  nodup : result.status.Nodup

/-- The flags tell which of the two comparisons failed. -/
theorem reportsOn (entry : Entry) (expected computed : DigestUri)
    (expectedSize : UInt64) {bytes : Bytes} (hfits : bytes.length < UInt64.size) :
    ReportsOn ⟨entry, computed, UInt64.ofNat bytes.length, expected, expectedSize⟩ entry expected
      expectedSize computed bytes where
  entry_eq := rfl
  expectedDigest_eq := rfl
  expectedSize_eq := rfl
  computedDigest_eq := rfl
  computedSize_eq := UInt64.toNat_ofNat_of_lt' hfits
  success_iff := by
    rw [success_mem_status_iff, ← UInt64.toNat_inj, UInt64.toNat_ofNat_of_lt' hfits]
    exact and_congr eq_comm eq_comm
  badChecksum_iff := by
    rw [badChecksum_mem_status_iff]
    exact ne_comm
  badSize_iff := by
    rw [badSize_mem_status_iff, Ne, ← UInt64.toNat_inj, UInt64.toNat_ofNat_of_lt' hfits]
    exact ne_comm
  nodup := nodup_status _

end FixityResult

namespace Entry

/-- A file promises its content, a directory that every read fails. -/
theorem exists_promises_of_ofFile {tree : FileTree} {path : String} {source : Source}
    (hfile : Source.ofFile tree path = .ok source) (stores : Stores) :
    ∃ bytes failure, source.Promises stores bytes failure := by
  rw [Source.ofFile] at hfile
  split at hfile
  · cases hfile
  · cases hfile
    exact ⟨_, _, .directory stores⟩
  · cases hfile
    exact ⟨_, _, .file _ stores⟩

theorem exists_promises_of_direct {store : BlobStore} {key : ContentKey} {tree : FileTree}
    {source : Source} (hopen : store.openRead key tree = .ok source) (stores : Stores) :
    ∃ bytes failure, source.Promises stores bytes failure := by
  rw [BlobStore.openRead] at hopen
  split at hopen
  · cases hopen
  · split at hopen
    · rename_i hfile
      cases hopen
      exact exists_promises_of_ofFile hfile stores
    · cases hopen
    · cases hopen

/-- An entry that was opened promises bytes up to the end or a failure; the failure behind
the bytes of a chunk store carries an error of the reader. -/
theorem exists_promises_of_openRead {entry : Entry} {source : Source} {v v' : Vault}
    (hopen : entry.openRead v = (.ok source, v')) :
    ∃ bytes failure, source.Promises v'.stores bytes failure ∧
      (entry.backend.chunkStore?.isSome → ∀ error, failure = some error →
        ∃ cause, error.carried? = some cause ∧ cause.OfReader) := by
  obtain ⟨backend, key⟩ := entry
  cases backend with
  | direct id store =>
    rw [openRead] at hopen
    dsimp only at hopen
    split at hopen
    · cases hopen
    · rename_i hdirect
      cases hopen
      obtain ⟨bytes, failure, hpromises⟩ := exists_promises_of_direct hdirect v.stores
      exact ⟨bytes, failure, hpromises, fun hchunked => absurd hchunked Bool.false_ne_true⟩
  | chunked store chunkSize =>
    rw [openRead] at hopen
    dsimp only at hopen
    split at hopen
    · cases hopen
    · rename_i r stores _
      cases hopen
      refine ⟨_, _, .chunks store.id r stores, fun _ error herror => ?_⟩
      obtain ⟨cause, hcause, rfl⟩ := Option.map_eq_some_iff.1 herror
      have hreader := ChunkReader.ofReader_of_beyond hcause
      exact ⟨cause, hreader.carried?_toStream, hreader⟩

/-- An entry that cannot be opened fails the check with the error of opening it. -/
theorem checkFixity_of_openRead_error {entry : Entry} {v v' : Vault} {error : VaultError}
    (expected : DigestUri) (expectedSize : UInt64) (hopen : entry.openRead v = (.error error, v'))
    (algorithm : Algorithm) (prefed : List Bytes) :
    (entry.checkFixity expected expectedSize ((Digester.start algorithm).fed prefed) v).1 =
      .error error := by
  rw [checkFixity]
  rw [Digester.clone_fed_start]
  simp only [hopen]

/-- What comes of a fixity check once the entry is opened, whatever is read at a time. -/
theorem checkFixity_of_openRead {entry : Entry} {source : Source} {v v' : Vault} {size : Nat}
    (expected : DigestUri) (expectedSize : UInt64) (hsize : 0 < size)
    (hopen : entry.openRead v = (.ok source, v')) (algorithm : Algorithm) (prefed : List Bytes) :
    (entry.checkFixity expected expectedSize ((Digester.start algorithm).fed prefed) v).1 =
      match (source.drain size v'.stores).failure with
      | some failure => .error (.fixityCheckFailed failure)
      | none => .ok ⟨entry,
          DigestUri.ofDigest algorithm.name
            (algorithm.hash (prefed.flatten ++ (source.drain size v'.stores).bytes)),
          UInt64.ofNat (source.drain size v'.stores).bytes.length, expected, expectedSize⟩ := by
  obtain ⟨bytes, failure, hpromises, -⟩ := exists_promises_of_openRead hopen
  obtain ⟨hbytes, hfailure⟩ := hpromises.drain hsize
  have hdigestSize : 0 < digestSize := by decide
  obtain ⟨hbytes', hfailure'⟩ := hpromises.drain hdigestSize
  rw [hbytes, hfailure]
  rw [checkFixity]
  rw [Digester.clone_fed_start]
  simp only [hopen, Source.drainTracked_start, hfailure']
  cases failure with
  | some error => rfl
  | none =>
    rw [hbytes']
    rfl

/-- A fixity check reports on exactly the bytes that a consumer reads, who may ask for any
number of bytes at a time. -/
theorem checkFixity_observes (entry : Entry) (expected : DigestUri) (expectedSize : UInt64)
    (v : Vault) (size : Nat) (hsize : 0 < size) :
    (∀ name, entry.checkFixity expected expectedSize (.pinned name) v =
      (.error (.digestNotCloneable name), v)) ∧
    ∀ (algorithm : Algorithm) (prefed : List Bytes),
      let outcome :=
        (entry.checkFixity expected expectedSize ((Digester.start algorithm).fed prefed) v).1
      match entry.openRead v with
      | (.error error, _) => outcome = .error error
      | (.ok source, opened) =>
        let consumed := source.drain size opened.stores
        match consumed.failure with
        | some failure =>
          outcome = .error (.fixityCheckFailed failure) ∧
            (entry.backend.chunkStore?.isSome →
              ∃ cause, failure.carried? = some cause ∧ cause.OfReader)
        | none =>
          ∃ result, outcome = .ok result ∧
            (consumed.bytes.length < UInt64.size →
              result.ReportsOn entry expected expectedSize
                (DigestUri.ofDigest algorithm.name
                  (algorithm.hash (prefed.flatten ++ consumed.bytes)))
                consumed.bytes) := by
  refine ⟨fun name => rfl, fun algorithm prefed => ?_⟩
  cases hopen : entry.openRead v with
  | mk result opened =>
    cases result with
    | error error =>
      exact checkFixity_of_openRead_error expected expectedSize hopen algorithm prefed
    | ok source =>
      have houtcome := checkFixity_of_openRead expected expectedSize hsize hopen algorithm prefed
      obtain ⟨bytes, failure, hpromises, htyped⟩ := exists_promises_of_openRead hopen
      obtain ⟨-, hfailure⟩ := hpromises.drain hsize
      dsimp only
      rw [hfailure] at houtcome ⊢
      cases failure with
      | some failure => exact ⟨houtcome, fun hchunked => htyped hchunked failure rfl⟩
      | none =>
        exact ⟨_, houtcome, fun hfits => FixityResult.reportsOn entry expected _ expectedSize hfits⟩

def oneChunkVault : Vault :=
  { Vault.ofTree .empty with
    stores := (∅ : Stores).insert 0 {
      contents := ((∅ : Contents).insert "k-data/0" [1, 2, 3]).insert "k-data"
        (manifestOf .standard [1, 2, 3]).encode } }

/-- The check of the three bytes, with a digester that was fed another byte before. -/
theorem checkFixity_oneChunkVault :
    let entry : Entry := ⟨.chunked ⟨0, .ofLoader Backend.memoryLoader⟩ .standard, ⟨"k"⟩⟩
    ∃ result, (entry.checkFixity ⟨"sha1", ""⟩ 3 ((Digester.start .sha1).fed [[0]])
        oneChunkVault).1 = .ok result ∧
      result.ReportsOn entry ⟨"sha1", ""⟩ 3
        (DigestUri.ofDigest "sha1" (Algorithm.sha1.hash [0, 1, 2, 3])) [1, 2, 3] := by
  intro entry
  have hcontents : (oneChunkVault.stores.get 0).contents =
      ((∅ : Contents).insert "k-data/0" [1, 2, 3]).insert "k-data"
        (manifestOf .standard [1, 2, 3]).encode := by
    rw [oneChunkVault, Stores.get_insert_self]
  have hloads : (oneChunkVault.stores.get 0).ServesLoads := by
    rw [oneChunkVault, Stores.get_insert_self]
    exact fun _ _ => rfl
  have hvalue : (oneChunkVault.stores.get 0).contents.HoldsValue (ContentKey.mk "k").dataKey
      .standard [1, 2, 3] := by
    rw [hcontents]
    refine ⟨Std.ExtTreeMap.getElem?_insert_self, fun i hi => ?_⟩
    have hcount : (manifestOf .standard [1, 2, 3]).chunks = 1 := by decide
    obtain rfl : i = 0 := by
      rw [hcount, UInt64.lt_iff_toNat_lt] at hi
      exact UInt64.toNat_inj.1 (Nat.lt_one_iff.1 hi)
    decide +kernel
  have hfits : [1, 2, 3].length < UInt64.size := by decide
  obtain ⟨opened, v', hopen, hpromises⟩ := exists_openRead_of_holdsValue ⟨"k"⟩
    ⟨0, .ofLoader Backend.memoryLoader⟩ .standard oneChunkVault hloads hvalue hfits
  obtain ⟨hbytes, hfailure⟩ := hpromises.drain Nat.one_pos
  have hobserved := (checkFixity_observes entry ⟨"sha1", ""⟩ 3 oneChunkVault 1 Nat.one_pos).2
    .sha1 [[0]]
  change entry.openRead oneChunkVault = _ at hopen
  rw [hopen] at hobserved
  dsimp only at hobserved
  rw [hfailure, hbytes] at hobserved
  obtain ⟨result, hresult, hreports⟩ := hobserved
  exact ⟨result, hresult, hreports hfits⟩

end Entry

end ContentVault
