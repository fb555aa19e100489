import ContentVault.Proofs.Homes

/-!
# Values in a database

An opened database starts from what its file holds, and when it is closed its file holds what
it has come to.  Each value is written over what was stored under its key, with chunks of the
size of the day, and nothing that the other values occupy is touched.
-/

namespace ContentVault

open BlobStore (NoCollision keyOf)
open Home (databaseAt?_ofTree)

variable {tree : FileTree} {path : String} {place : Place} {contents : Contents}
  {done : List Bytes} {chunkSize : ChunkSize} {properties : Properties} {v : Vault}

/-- The vault with the database open, and nothing else. -/
def databaseVault (tree : FileTree) (place : Place) (contents : Contents) : Vault where
  tree := tree.put place (.database contents)
  stores := (∅ : Stores).insert 0 { contents }
  databases := [(0, place)]
  next := 1

/-- The store of the database. -/
def databaseHandle (path : String) (properties : Properties) : StoreHandle :=
  ⟨0, ((StoreConfig.ofLoader Backend.databaseLoader).withProperties properties).withLocation path⟩

theorem openBackend_database (hplace : tree.placeForFile path = .ok place)
    (hcontents : (Vault.ofTree tree).databaseAt? place = some contents) :
    Config.openBackend ⟨.chunked (.database path) chunkSize properties⟩ (.ofTree tree) =
      (.ok (.chunked (databaseHandle path properties) chunkSize),
        databaseVault tree place contents) := by
  have hplace' : (Vault.ofTree tree).tree.placeForFile path = .ok place := hplace
  simp only [Config.openBackend, Vault.openDatabase, hplace', hcontents]
  rfl

/-- A file that holds these contents keeps the values in them. -/
theorem holds_of_database (hplace : tree.placeForFile path = .ok place)
    (hall : contents.HoldsAll done) (hfits : ∀ value ∈ done, value.length < UInt64.size) :
    (Home.database path place).Holds done (tree.put place (.database contents)) := by
  have hfile : Node.database contents ≠ .directory := Node.noConfusion
  refine ⟨⟨_, ⟨rfl, FileTree.placeForFile_put hplace hfile⟩, contents, ?_, hall⟩, hfits⟩
  rw [databaseAt?_ofTree (FileTree.ne_nil_of_placeForFile hplace), FileTree.getElem?_put,
    if_pos rfl]

theorem get_databaseVault (tree : FileTree) (place : Place) (contents : Contents) :
    (databaseVault tree place contents).stores.get 0 = { contents } :=
  Stores.get_insert_self _ _ _

theorem servesAll_databaseVault (tree : FileTree) (place : Place) (contents : Contents) :
    ((databaseVault tree place contents).stores.get 0).ServesAll := by
  rw [get_databaseVault]
  exact fun _ _ => rfl

/-- A store that holds anything is open. -/
theorem Stores.mem_of_contents {stores : Stores} {id : StoreId} {key : String} {value : Bytes}
    (hvalue : (stores.get id).contents[key]? = some value) : id ∈ stores := by
  by_contra hnone
  have hget : stores.get id = {} := Std.ExtTreeMap.getD_eq_fallback hnone
  rw [hget] at hvalue
  cases Std.ExtTreeMap.getElem?_empty.symm.trans hvalue

theorem serves_database (hplace : tree.placeForFile path = .ok place)
    (hbuffer : chunkSize.IsAllocatable) (hall : contents.HoldsAll done)
    (hfits : ∀ value ∈ done, value.length < UInt64.size) :
    (Home.database path place).Serves done tree
      (.chunked (databaseHandle path properties) chunkSize)
      (databaseVault tree place contents) where
  opened := Home.leavesOthers_put hplace _
  stores := by
    intro value hlength
    have hserves := servesAll_databaseVault tree place contents
    have hcopySize : 0 < Entry.copySize := by decide
    obtain ⟨source', stores', hstore, hserves', hcontents'⟩ :=
      Entry.storeChunks_of_yields (keyOf value) (databaseHandle path properties) hbuffer hserves
        fun now _ => Source.yields_file _ hcopySize value now
    have hget : (stores'.get 0).contents =
        contents.overwrite (keyOf value).dataKey chunkSize value := by
      rw [databaseHandle, get_databaseVault] at hcontents'
      exact hcontents'
    have hopen : (0 : StoreId) ∈ stores' := by
      have hvalue := contents.holdsValue_overwrite (keyOf value).dataKey chunkSize hlength
      rw [← hget] at hvalue
      exact Stores.mem_of_contents hvalue.manifest
    refine ⟨source', { databaseVault tree place contents with stores := stores' }, ?_, ?_⟩
    · rw [Entry.store_chunked, hstore]
      rfl
    · rw [Vault.tree_closeAll rfl, if_pos hopen, hget, databaseVault, FileTree.put_put]
      refine ⟨Home.leavesOthers_put hplace _, fun hdistinct => ?_⟩
      exact holds_of_database hplace (hall.overwrite chunkSize hlength hdistinct)
        (List.forall_mem_append.2 ⟨hfits, List.forall_mem_singleton.2 hlength⟩)
  found := by
    intro value hvalue
    obtain ⟨held, hheld⟩ := hall.values value hvalue
    apply Entry.exists_openRead_of_holdsValue
    · exact (servesAll_databaseVault tree place contents).servesLoads
    · change ((databaseVault tree place contents).stores.get 0).contents.HoldsValue _ held value
      rw [get_databaseVault]
      exact hheld
    · exact hfits value hvalue
  missing := by
    intro key hkey opened v' hopen
    obtain ⟨hbase, hfirst⟩ := hall.nothing key hkey
    have hloads := (servesAll_databaseVault tree place contents).servesLoads
    have hmissing : ((databaseVault tree place contents).stores.get 0).contents[key.dataKey]? =
        none := by
      rw [get_databaseVault, hbase]
    have hcreate := ChunkReader.create_of_absent hloads hmissing
    simp only [Entry.openRead, Stores.update_eq] at hopen
    split at hopen
    · cases hopen
    · rename_i heq
      cases (congrArg Prod.fst heq).symm.trans hcreate
  stays := by
    intro v' hreads
    have htree : v'.closeAll.tree = tree.put place (.database contents) := by
      rw [Vault.tree_closeAll hreads.databases, hreads.tree, hreads.contents, get_databaseVault,
        databaseVault, FileTree.put_put, ite_self]
    rw [htree]
    exact ⟨Home.leavesOthers_put hplace _, holds_of_database hplace hall hfits⟩

end ContentVault
