import ContentVault.Program
import ContentVault.Proofs.AlgorithmNames
import ContentVault.Proofs.CommandLine
import ContentVault.Proofs.FixityCheck
import ContentVault.Proofs.StoredValues
import ContentVault.Proofs.TreeFiles

/-!
# The steps of a command

A command opens its backend, works on one entry and closes what it has opened.  What it
prints is decided by the entry, and what it leaves in the tree by the database that was open.
-/

namespace ContentVault

open BlobStore (keyOf)
open ChunkStore (Calls)
open Digest (Algorithm Digester)

namespace Vault

variable {v : Vault} {id : StoreId} {place : Place}

/-! ### Closing -/

theorem tree_foldl_closeStore_of_nil (hnone : v.databases = []) (ids : List StoreId) :
    (ids.foldl closeStore v).tree = v.tree := by
  induction ids generalizing v with
  | nil => rfl
  | cons id ids ih =>
    have hlookup : v.databases.lookup id = none := by
      rw [hnone]
      rfl
    rw [List.foldl_cons, ih]
    · simp only [closeStore, hlookup]
    · simp only [closeStore, hnone, List.filter_nil]

/-- The one open database is written to its file when its turn comes. -/
theorem tree_foldl_closeStore (hone : v.databases = [(id, place)]) (ids : List StoreId) :
    (ids.foldl closeStore v).tree =
      if id ∈ ids then v.tree.put place (.database (v.stores.get id).contents) else v.tree := by
  induction ids generalizing v with
  | nil => rfl
  | cons other ids ih =>
    rw [List.foldl_cons]
    by_cases heq : other = id
    · subst heq
      have hlookup : v.databases.lookup other = some place := by
        rw [hone, List.lookup_cons_self]
      rw [if_pos List.mem_cons_self, tree_foldl_closeStore_of_nil]
      · simp only [closeStore, hlookup]
      · simp [closeStore, hone]
    · have hlookup : v.databases.lookup other = none := by
        rw [hone, List.lookup_cons, beq_false_of_ne heq]
        rfl
      have hget : (v.closeStore other).stores.get id = v.stores.get id := by
        simp [closeStore, Stores.get, Std.ExtTreeMap.getD_erase, heq]
      have htree : (v.closeStore other).tree = v.tree := by
        simp only [closeStore, hlookup]
      rw [ih, htree, hget]
      · simp [List.mem_cons, Ne.symm heq]
      · simp [closeStore, hone, Ne.symm heq]

theorem tree_closeAll_of_nil (hnone : v.databases = []) : v.closeAll.tree = v.tree :=
  tree_foldl_closeStore_of_nil hnone _

theorem tree_closeAll (hone : v.databases = [(id, place)]) :
    v.closeAll.tree =
      if id ∈ v.stores then v.tree.put place (.database (v.stores.get id).contents) else v.tree := by
  rw [closeAll, tree_foldl_closeStore hone]
  simp only [Std.ExtTreeMap.mem_keys]

/-- Nothing but the tally and the history of the stores may differ. -/
structure OnlyReads (v after : Vault) : Prop where
  tree : after.tree = v.tree
  databases : after.databases = v.databases
  contents : ∀ id, (after.stores.get id).contents = (v.stores.get id).contents

theorem OnlyReads.refl (v : Vault) : OnlyReads v v := ⟨rfl, rfl, fun _ => rfl⟩

theorem OnlyReads.trans {after last : Vault} (hfirst : OnlyReads v after)
    (hsecond : OnlyReads after last) : OnlyReads v last :=
  ⟨hsecond.tree.trans hfirst.tree, hsecond.databases.trans hfirst.databases,
    fun id => (hsecond.contents id).trans (hfirst.contents id)⟩

end Vault

namespace Entry

open Vault (OnlyReads)

theorem onlyReads_openRead (entry : Entry) (v : Vault) : OnlyReads v (entry.openRead v).2 := by
  rw [openRead]
  split
  · split <;> exact .refl v
  · rename_i store chunkSize _
    have hcalls := ChunkReader.calls_create entry.key.dataKey (v.stores.get store.id)
    have hupdate : OnlyReads v { v with
        stores := v.stores.insert store.id
          (ChunkReader.create entry.key.dataKey (v.stores.get store.id)).2 } := by
      refine ⟨rfl, rfl, fun id => ?_⟩
      by_cases hid : id = store.id
      · rw [hid, Stores.get_insert_self, hcalls.contents_eq_of_isLoad]
      · rw [Stores.get_insert_of_ne _ _ hid]
    rw [Stores.update_eq]
    split <;> rename_i heq <;> rw [← (Prod.mk.inj heq).2] <;> exact hupdate

/-- A check leaves no trace of itself. -/
theorem onlyReads_checkFixity (entry : Entry) (expected : DigestUri) (count : UInt64)
    (digester : Digester) (v : Vault) :
    OnlyReads v (entry.checkFixity expected count digester v).2 := by
  have hopen := entry.onlyReads_openRead v
  rw [checkFixity]
  split
  · exact .refl v
  · rename_i digester' _
    split
    · rename_i heq
      rw [heq] at hopen
      exact hopen
    · rename_i source v' heq
      rw [heq] at hopen
      let tracked : Source := .tracked source (.start digester')
      have hdrain : OnlyReads v'
          { v' with stores := (tracked.drain digestSize v'.stores).stores } :=
        ⟨rfl, rfl, fun id => (tracked.calls_drain digestSize v'.stores id).contents_eq_of_isLoad⟩
      dsimp only
      split <;> exact hopen.trans hdrain

end Entry

/-! ### Storing a file -/

theorem DigestUri.render_ofDigest_sha1 (digest : Bytes) :
    (DigestUri.ofDigest "sha1" digest).render = "urn:sha1:" ++ Hex.encode digest := by
  have hname : DigestUri.normalName "sha1" = "sha1" := rfl
  rw [DigestUri.ofDigest, hname]
  rfl

/-- The line that tells of a stored value: its key, the URI of its digest, its size and where
it is kept. -/
def storedLine (value : Bytes) (location : String) : String :=
  String.intercalate "\t" [Hex.encode (Algorithm.sha1.hash value),
    "urn:sha1:" ++ Hex.encode (Algorithm.sha1.hash value), toString value.length, location]

namespace Command

section Store

variable {config : Config} {file : String} {value : Bytes} {backend : Backend} {source' : Source}
  {v opened stored : Vault}

/-- A file that can be read twice is stored under its digest. -/
theorem storeFile_of_store (hfile : v.tree.openFile file = .ok (some value))
    (hopen : config.openBackend v = (.ok backend, opened))
    (hagain : opened.tree.openFile file = .ok (some value))
    (hstore : (Entry.mk backend (keyOf value)).store (.file value) opened =
      (.ok (keyOf value), source', stored))
    (hfits : value.length < UInt64.size) :
    storeFile config file v = (.ok ⟨storedLine value backend.location, true⟩, stored) := by
  have hdigestSize : 0 < digestSize := by decide
  obtain ⟨hbytes, hfailure⟩ := (Source.Promises.file value v.stores).drain hdigestSize
  have htracked : (Source.file value).drainTracked (.start (Digester.start .sha1)) digestSize
      v.stores = _ :=
    Source.drainTracked_start .sha1 [] (.file value) digestSize v.stores
  have hcount : (UInt64.ofNat value.length).toNat = value.length := UInt64.toNat_ofNat_of_lt' hfits
  have hdigest : (Digester.ofMessage .sha1 value).finalize = Algorithm.sha1.hash value :=
    Digest.Accumulator.finalize_ofMessage value
  rw [keyOf] at hstore
  simp only [storeFile, FileTree.ofFile_of_openFile hfile, FileTree.ofFile_of_openFile hagain,
    htracked, hfailure, hbytes, storeTracked, hopen, Tracker.digest, Tracker.uri, Tracker.ofBytes,
    List.flatten_nil, List.nil_append, hdigest, hstore, hcount]
  rw [storedLine, ← DigestUri.render_ofDigest_sha1]
  rfl

end Store

end Command

/-! ### Checking a value -/

/-- How the flags of a check are printed: one for the digest and one for the size where they
do not fit. -/
def verdict (digestFits sizeFits : Prop) [Decidable digestFits] [Decidable sizeFits] : String :=
  if digestFits then if sizeFits then "SUCCESS" else "BAD_SIZE"
  else if sizeFits then "BAD_CHECKSUM" else "BAD_CHECKSUM,BAD_SIZE"

/-- The end of a check of a value: what it prints ends in the verdict, and the exit code is 0
if both fit and 3 otherwise. -/
def Outcome.Judges (outcome : Outcome) (digestFits sizeFits : Prop) [Decidable digestFits]
    [Decidable sizeFits] : Prop :=
  ∃ front, outcome = ⟨if digestFits ∧ sizeFits then 0 else 3,
    front ++ " [" ++ verdict digestFits sizeFits ++ "]\n", none⟩

theorem Outcome.Judges.success {outcome : Outcome} {digestFits sizeFits : Prop}
    [Decidable digestFits] [Decidable sizeFits] (hjudges : outcome.Judges digestFits sizeFits)
    (hdigest : digestFits) (hsize : sizeFits) :
    ∃ front, outcome = ⟨0, front ++ " [SUCCESS]\n", none⟩ := by
  obtain ⟨front, hjudges⟩ := hjudges
  refine ⟨front, hjudges.trans ?_⟩
  rw [if_pos ⟨hdigest, hsize⟩, verdict, if_pos hdigest, if_pos hsize, String.append_assoc,
    String.append_assoc]
  rfl

namespace FixityResult

theorem isSuccess_iff (result : FixityResult) : result.isSuccess = true ↔
    result.computedDigest = result.expectedDigest ∧
      result.computedSize = result.expectedSize := by
  rw [isSuccess, List.contains_iff_mem, success_mem_status_iff]

/-- The line of a result ends in the names of its flags. -/
theorem exists_render (result : FixityResult) :
    ∃ front, result.render = front ++ " [" ++
      verdict (result.expectedDigest = result.computedDigest)
        (result.expectedSize = result.computedSize) ++ "]" := by
  have hflags : String.intercalate "," (result.status.map FixityFlag.name) =
      verdict (result.expectedDigest = result.computedDigest)
        (result.expectedSize = result.computedSize) := by
    rw [status, verdict]
    by_cases hdigest : result.expectedDigest = result.computedDigest <;>
      by_cases hsize : result.expectedSize = result.computedSize <;>
      simp [hdigest, hsize, Ne.symm, FixityFlag.name]
  have hbracket (front : String) : front ++ " bytes) [" = front ++ " bytes)" ++ " [" := by
    rw [String.append_assoc]
    rfl
  unfold render
  rw [hflags, hbracket]
  exact ⟨_, rfl⟩

/-- The outcome of a check of these bytes. -/
theorem judges (entry : Entry) (expected computed : DigestUri) (count : UInt64) {value : Bytes}
    (hfits : value.length < UInt64.size) :
    let result : FixityResult := ⟨entry, computed, UInt64.ofNat value.length, expected, count⟩
    (Outcome.ofResult (.ok ⟨result.render, result.isSuccess⟩)).Judges (expected = computed)
      (count.toNat = value.length) := by
  intro result
  have hsize : result.expectedSize = result.computedSize ↔ count.toNat = value.length := by
    rw [← UInt64.toNat_inj]
    change _ = (UInt64.ofNat value.length).toNat ↔ _
    rw [UInt64.toNat_ofNat_of_lt' hfits]
  have hsuccess : result.isSuccess = true ↔ expected = computed ∧ count.toNat = value.length := by
    rw [isSuccess_iff, eq_comm, eq_comm (b := result.expectedSize), hsize]
  obtain ⟨front, hrender⟩ := result.exists_render
  refine ⟨front, ?_⟩
  have hend : "]\n" = "]" ++ "\n" := rfl
  simp only [Outcome.ofResult, hrender, hsuccess, hsize]
  rw [hend, ← String.append_assoc]

end FixityResult

namespace Command

section Check

variable {config : Config} {key : ContentKey} {expected : DigestUri} {count : UInt64}
  {spelling : String} {algorithm : Algorithm} {value : Bytes} {backend : Backend} {source : Source}
  {v opened after : Vault}

theorem checkValue_eq (halgorithm : Algorithm.ofSpelling? expected.algorithm = some algorithm)
    (hopen : config.openBackend v = (.ok backend, opened)) :
    checkValue config key expected count v =
      match (Entry.mk backend key).checkFixity expected count (Digester.start algorithm) opened with
      | (.error error, v) => (.error (.vault error), v)
      | (.ok result, v) => (.ok ⟨result.render, result.isSuccess⟩, v) := by
  have hdigester : Digester.ofSpelling? expected.algorithm = some (Digester.start algorithm) := by
    rw [Digester.ofSpelling?, halgorithm, Option.map_some]
  rewrite [checkValue, hdigester, hopen]
  rfl

/-- A value that can be read to its end is judged by its digest and its size. -/
theorem judges_checkValue (hspelling : Algorithm.ofSpelling? spelling = some algorithm)
    (digest : Bytes) (count : UInt64) (hopen : config.openBackend v = (.ok backend, opened))
    (hread : (Entry.mk backend key).openRead opened = (.ok source, after))
    (hpromises : source.Promises after.stores value none) (hfits : value.length < UInt64.size) :
    (Outcome.ofResult
        ((checkValue config key (.ofDigest spelling digest) count v).1.mapError .reported)).Judges
      (digest = algorithm.hash value) (count.toNat = value.length) := by
  obtain ⟨hbytes, hfailure⟩ := hpromises.drain Nat.one_pos
  have hcheck := Entry.checkFixity_of_openRead (.ofDigest spelling digest) count Nat.one_pos hread
    algorithm []
  rw [hfailure, hbytes, List.flatten_nil, List.nil_append] at hcheck
  have hjudges := FixityResult.judges (Entry.mk backend key) (.ofDigest spelling digest)
    (DigestUri.ofDigest algorithm.name (algorithm.hash value)) count hfits
  simp only [DigestUri.ofDigest_eq_iff hspelling] at hjudges
  rw [checkValue_eq (DigestUri.ofSpelling?_ofDigest hspelling digest) hopen]
  split
  · rename_i heq
    cases (congrArg Prod.fst heq).symm.trans hcheck
  · rename_i heq
    cases (congrArg Prod.fst heq).symm.trans hcheck
    exact hjudges

/-- A value that cannot be opened, or not be read to its end, is not judged at all. -/
theorem exists_error_checkValue (expected : DigestUri) (count : UInt64)
    (hopen : config.openBackend v = (.ok backend, opened))
    (hread : ∀ source after, (Entry.mk backend key).openRead opened = (.ok source, after) →
      ∃ bytes error, source.Promises after.stores bytes (some error)) :
    ∃ error, (checkValue config key expected count v).1 = .error error := by
  cases halgorithm : Algorithm.ofSpelling? expected.algorithm with
  | none =>
    simp only [checkValue, Digester.ofSpelling?, halgorithm, Option.map_none]
    exact ⟨_, rfl⟩
  | some algorithm =>
    rw [checkValue_eq halgorithm hopen]
    cases hentry : (Entry.mk backend key).openRead opened with
    | mk result after =>
      have hfails : ∃ error, ((Entry.mk backend key).checkFixity expected count
          (Digester.start algorithm) opened).1 = .error error := by
        cases result with
        | error error =>
          exact ⟨error, Entry.checkFixity_of_openRead_error expected count hentry algorithm []⟩
        | ok source =>
          obtain ⟨bytes, error, hpromises⟩ := hread source after hentry
          obtain ⟨-, hfailure⟩ := hpromises.drain Nat.one_pos
          have hcheck := Entry.checkFixity_of_openRead expected count Nat.one_pos hentry algorithm []
          rw [hfailure] at hcheck
          exact ⟨_, hcheck⟩
      obtain ⟨error, hfails⟩ := hfails
      split
      · exact ⟨_, rfl⟩
      · rename_i heq
        cases (congrArg Prod.fst heq).symm.trans hfails

/-- A check does nothing, or opens the backend and reads. -/
theorem checkValue_leaves (key : ContentKey) (expected : DigestUri) (count : UInt64)
    (hopen : config.openBackend v = (.ok backend, opened)) :
    (checkValue config key expected count v).2 = v ∨
      Vault.OnlyReads opened (checkValue config key expected count v).2 := by
  cases halgorithm : Algorithm.ofSpelling? expected.algorithm with
  | none => exact .inl (by simp only [checkValue, Digester.ofSpelling?, halgorithm, Option.map_none])
  | some algorithm =>
    have hreads := (Entry.mk backend key).onlyReads_checkFixity expected count
      (Digester.start algorithm) opened
    rw [checkValue_eq halgorithm hopen]
    split <;> rename_i heq <;> rw [heq] at hreads <;> exact .inr hreads

end Check

end Command

/-- A command that is read leads to the outcome of carrying it out on the tree. -/
theorem runProgram_of_parse {arguments : List String} {command : Command} {config : Config}
    {tree : FileTree} (hparse : Command.parse? arguments = some command)
    (hload : Config.load command.config tree = .ok config) :
    runProgram arguments tree =
      let ended := match command.action with
        | .store file => Command.storeFile config file (.ofTree tree)
        | .check key digest size =>
          let checked := Command.checkValue config key digest size (.ofTree tree)
          (checked.1.mapError .reported, checked.2)
      (.ofResult ended.1, ended.2.closeAll.tree) := by
  have hload' : Config.load command.config (Vault.ofTree tree).tree = .ok config := hload
  rewrite [runProgram, hparse]
  dsimp only
  rewrite [Command.perform, hload']
  rfl

end ContentVault
