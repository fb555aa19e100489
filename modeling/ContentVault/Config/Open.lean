import ContentVault.Config.Decode
import ContentVault.Vault

/-!
# Opening the configured backend

A configuration is read from a file, and the backend it describes is opened.
-/

namespace ContentVault

inductive ConfigError where
  | unreadable (error : IoError)
  | invalid (fault : JsonFault)
  | storage (error : StorageError)

/-- Of an invalid configuration the message gives the beginning only. -/
def ConfigError.message : ConfigError → String
  | .unreadable error => "cannot read config file: " ++ error.message
  | .invalid _ => "invalid config: "
  | .storage error => "cannot open backend: " ++ error.message

namespace Config

def load (path : String) (tree : FileTree) : Except ConfigError Config :=
  match tree.openFile path with
  | .error failure => .error (.unreadable (.file failure))
  | .ok none => .error (.unreadable (.file .isADirectory))
  | .ok (some content) =>
    match decode content with
    | .error fault => .error (.invalid fault)
    | .ok config => .ok config

def openBackend (config : Config) (v : Vault) : Except ConfigError Backend × Vault :=
  match config.backend with
  | .direct root =>
    match v.openBlobStore root with
    | (.error error, v) => (.error (.storage error), v)
    | (.ok backend, v) => (.ok backend, v)
  | .chunked .memory chunkSize properties =>
    let (store, v) :=
      v.openMemory ((StoreConfig.ofLoader Backend.memoryLoader).withProperties properties)
    (.ok (.chunked store chunkSize), v)
  | .chunked (.database path) chunkSize properties =>
    match v.openDatabase path
        ((StoreConfig.ofLoader Backend.databaseLoader).withProperties properties) with
    | (.error error, v) => (.error (.storage error), v)
    | (.ok store, v) => (.ok (.chunked store chunkSize), v)

end Config

end ContentVault
