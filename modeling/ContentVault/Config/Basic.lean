import ContentVault.ChunkStore
import ContentVault.StoreConfig

/-!
# Configurations

A configuration says which backend is in use.  It is kept as a JSON object whose
`backend` is told apart by the member `kind`, and the store of a chunked backend by
the member `type`.
-/

namespace ContentVault

open Json (writeText)

/-- Where the chunks of a chunked backend are kept. -/
inductive StoreKind where
  | memory
  | database (path : String)
  deriving DecidableEq

inductive BackendConfig where
  | direct (root : String)
  | chunked (store : StoreKind) (chunkSize : ChunkSize) (properties : Properties)
  deriving DecidableEq

structure Config where
  backend : BackendConfig
  deriving DecidableEq

namespace StoreKind

/-- The store without and with a path. -/
inductive Tag where
  | memory
  | database
  deriving DecidableEq, Repr

def Tag.name : Tag → String
  | .memory => "memory"
  | .database => "redb"

def render : StoreKind → String
  | .memory => "\x7b\"type\":" ++ writeText Tag.memory.name ++ "\x7d"
  | .database path =>
    "\x7b\"type\":" ++ writeText Tag.database.name ++ ",\"path\":" ++ writeText path ++ "\x7d"

end StoreKind

namespace BackendConfig

inductive Kind where
  | direct
  | chunked
  deriving DecidableEq, Repr

def Kind.name : Kind → String
  | .direct => "direct"
  | .chunked => "chunked"

def renderProperties (properties : Properties) : String :=
  let members := properties.toList.map fun pair => writeText pair.1 ++ ":" ++ writeText pair.2
  "\x7b" ++ String.intercalate "," members ++ "\x7d"

/-- The JSON text of a backend, its kind first. -/
def render : BackendConfig → String
  | .direct root =>
    "\x7b\"kind\":" ++ writeText Kind.direct.name ++ ",\"root\":" ++ writeText root ++ "\x7d"
  | .chunked store chunkSize properties =>
    "\x7b\"kind\":" ++ writeText Kind.chunked.name ++ ",\"store\":" ++ store.render ++
      ",\"chunk_size\":" ++ toString chunkSize.toNat ++
      ",\"properties\":" ++ renderProperties properties ++ "\x7d"

end BackendConfig

namespace Config

def standard : Config :=
  ⟨.chunked .memory .standard ∅⟩

def render (config : Config) : String :=
  "\x7b\"backend\":" ++ config.backend.render ++ "\x7d"

end Config

end ContentVault
