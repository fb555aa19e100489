import ContentVault.ChunkWriter
import ContentVault.Vault

/-!
# Entries

An entry is the value of one content key in one backend.  It can be opened as a
byte source and stored from one, in the same way for both kinds of backend.
-/

namespace ContentVault

structure Entry where
  backend : Backend
  key : ContentKey
  deriving DecidableEq

namespace Entry

def location (entry : Entry) : String :=
  entry.backend.location

def openRead (entry : Entry) (v : Vault) : Except VaultError Source × Vault :=
  match entry.backend with
  | .direct _ store =>
    match store.openRead entry.key v.tree with
    | .error error => (.error (.backendUnavailable error), v)
    | .ok source => (.ok source, v)
  | .chunked store _ =>
    match v.stores.update store.id (ChunkReader.create entry.key.dataKey) with
    | (.error error, stores) => (.error error, { v with stores })
    | (.ok reader, stores) => (.ok (.chunks store.id reader), { v with stores })

def copySize : Nat := 65536

structure Copied where
  failure : Option VaultError
  writer : ChunkWriter
  source : Source
  stores : Stores

set_option linter.unusedVariables false in
/-- Copies a source to a writer until the source ends or either of them fails.
Interrupted reads are tried again. -/
def copyToWriter (id : StoreId) (writer : ChunkWriter) (source : Source) (stores : Stores) :
    Copied :=
  match hread : source.read copySize stores with
  | (.ok [], after, stores') => ⟨none, writer, after, stores'⟩
  | (.ok (byte :: bytes), after, stores') =>
    let ((result, writer), stores') := stores'.update id fun s =>
      let (result, writer, s) := writer.write (byte :: bytes) s
      ((result, writer), s)
    match result with
    | .error error => ⟨some error, writer, after, stores'⟩
    | .ok _ => copyToWriter id writer after stores'
  | (.error error, after, stores') =>
    if hinterrupted : error.isInterrupted then copyToWriter id writer after stores'
    else ⟨some (.ofStream error), writer, after, stores'⟩
termination_by source.weight
decreasing_by
  · have hweight := Source.weight_read source copySize stores
    rw [hread] at hweight
    exact hweight (List.cons_ne_nil byte bytes)
  · have hweight := Source.weight_read source copySize stores
    rw [hread] at hweight
    exact hweight hinterrupted

/-- Stores a source in a chunk store.  The value is completed even if copying
failed, so that no chunk is left without a manifest as long as the store serves. -/
def storeChunks (key : ContentKey) (store : StoreHandle) (chunkSize : ChunkSize)
    (source : Source) (stores : Stores) :
    Except (Failure VaultError) ContentKey × Source × Stores :=
  match stores.update store.id (ChunkWriter.create key.dataKey chunkSize) with
  | (.error failure, stores) => (.error failure, source, stores)
  | (.ok writer, stores) =>
    let copied := copyToWriter store.id writer source stores
    let (finished, stores) := copied.stores.update store.id fun s =>
      let (finished, _, s) := copied.writer.finish s
      (finished, s)
    match copied.failure, finished with
    | some error, _ => (.error (.reported error), copied.source, stores)
    | none, .error error => (.error (.reported error), copied.source, stores)
    | none, .ok _ => (.ok key, copied.source, stores)

/-- Stores everything that a source yields as the value of the entry, and tells the
key it is stored under: a chunked backend keeps the key of the entry, a direct one
chooses its own.  What is left of the source comes back. -/
def store (entry : Entry) (source : Source) (v : Vault) :
    Except (Failure VaultError) ContentKey × Source × Vault :=
  match entry.backend with
  | .direct _ store =>
    match store.put source v.tree v.stores with
    | (.error error, source, tree, stores) =>
      (.error (.reported (.backendUnavailable error)), source, { v with tree, stores })
    | (.ok key, source, tree, stores) => (.ok key, source, { v with tree, stores })
  | .chunked store chunkSize =>
    let (result, source, stores) := storeChunks entry.key store chunkSize source v.stores
    (result, source, { v with stores })

end Entry

end ContentVault
