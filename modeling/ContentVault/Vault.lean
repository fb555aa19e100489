import ContentVault.Backend

/-!
# Vaults

A vault is everything that storing and reading may touch: a file tree, the chunk
stores that are open, and the database files behind some of them.  Opening a
store gives it a name that no store had before.

A database file belongs to at most one open store, and keeps what it held before it
was opened until the store is closed.
-/

namespace ContentVault

structure Vault where
  tree : FileTree
  stores : Stores
  /-- The place of the file behind each open database. -/
  databases : List (StoreId × Place)
  /-- The name for the next store. -/
  next : StoreId

namespace Vault

/-- A vault over a file tree, with no store open. -/
def ofTree (tree : FileTree) : Vault :=
  ⟨tree, ∅, [], 0⟩

def attach (v : Vault) (contents : Contents) : StoreId × Vault :=
  (v.next, { v with stores := v.stores.insert v.next { contents }, next := v.next + 1 })

def openMemory (v : Vault) (config : StoreConfig) : StoreHandle × Vault :=
  let (id, v) := v.attach ∅
  (⟨id, config⟩, v)

/-- What a database at a place holds, as long as no store has it open.  A missing
or empty file makes an empty database; any other file is none. -/
def databaseAt? (v : Vault) (place : Place) : Option Contents :=
  if v.databases.any fun entry => entry.2 = place then none
  else match v.tree.node? place with
    | none => some ∅
    | some (.file []) => some ∅
    | some (.database contents) => some contents
    | some _ => none

/-- Opens the chunk store in a database file, making the file if it is missing.
The location in the configuration becomes the path. -/
def openDatabase (v : Vault) (path : String) (config : StoreConfig) :
    Except StorageError StoreHandle × Vault :=
  match v.tree.placeForFile path with
  | .error _ => (.error .engine, v)
  | .ok place =>
    match v.databaseAt? place with
    | none => (.error .engine, v)
    | some contents =>
      let (id, v) := v.attach contents
      (.ok ⟨id, config.withLocation path⟩,
        { v with
          tree := v.tree.put place (.database contents)
          databases := (id, place) :: v.databases })

def openBlobStore (v : Vault) (root : String) : Except StorageError Backend × Vault :=
  match BlobStore.create root v.tree with
  | (.error error, tree) => (.error error, { v with tree })
  | (.ok store, tree) => (.ok (.direct v.next store), { v with tree, next := v.next + 1 })

/-- Closes a chunk store.  What a database holds is kept in its file. -/
def closeStore (v : Vault) (id : StoreId) : Vault :=
  let tree := match v.databases.lookup id with
    | none => v.tree
    | some place => v.tree.put place (.database (v.stores.get id).contents)
  { v with
    tree
    stores := v.stores.erase id
    databases := v.databases.filter fun entry => entry.1 ≠ id }

def closeAll (v : Vault) : Vault :=
  v.stores.keys.foldl closeStore v

/-- Writes a file as somebody else may do. -/
def writeFile (v : Vault) (path : String) (content : Bytes) : Except FileFailure Unit × Vault :=
  let (result, tree) := v.tree.writeFile path content
  (result, { v with tree })

/-- Removes a file as somebody else may do.  A store that has it open goes on
without it. -/
def removeFile (v : Vault) (path : String) : Except FileFailure Unit × Vault :=
  match v.tree.placeForFile path with
  | .error failure => (.error failure, v)
  | .ok place =>
    match v.tree.node? place with
    | none => (.error .noSuchFile, v)
    | some _ =>
      (.ok (),
        { v with
          tree := v.tree.remove place
          databases := v.databases.filter fun entry => entry.2 ≠ place })

end Vault

end ContentVault
