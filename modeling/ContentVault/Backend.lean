import ContentVault.BlobStore
import ContentVault.StoreConfig
import ContentVault.Text.Quoted

/-!
# Backends

A backend keeps values either directly, each in one file, or as chunks in a
chunk store.  Every store gets a name of its own when it is opened, so two
backends are equal exactly if they share the opened store and the chunk size.
-/

namespace ContentVault

/-- An open chunk store, with the configuration it was opened with. -/
structure StoreHandle where
  id : StoreId
  config : StoreConfig
  deriving DecidableEq

inductive Backend where
  | direct (id : StoreId) (store : BlobStore)
  | chunked (store : StoreHandle) (chunkSize : ChunkSize)
  deriving DecidableEq

namespace Backend

def chunkedName : String := "binstore::storage::ChunkedBinaryStore"

def memoryLoader : String := "binstore::storage::MemoryChunkStore"

def databaseLoader : String := "binstore::storage::RedbChunkStore"

def chunkStore? : Backend → Option StoreHandle
  | .direct _ _ => none
  | .chunked store _ => some store

def chunkSize? : Backend → Option ChunkSize
  | .direct _ _ => none
  | .chunked _ chunkSize => some chunkSize

/-- Where the values of the backend are: the description of a direct store, or the
loader of a chunk store and what tells the store from others. -/
def location : Backend → String
  | .direct _ store => store.describe
  | .chunked store _ =>
    chunkedName ++ ":" ++ store.config.loader ++ ":" ++ store.config.identification

def debugText : Backend → String
  | .direct _ store => "Direct(" ++ Text.quoted store.describe ++ ")"
  | .chunked store chunkSize =>
    "Chunked \x7b store: " ++ Text.quoted store.config.render ++
      ", chunk_size: " ++ toString chunkSize.toNat ++ " \x7d"

end Backend

end ContentVault
