import ContentVault.Proofs.DigestStream
import ContentVault.Proofs.FileNames
import ContentVault.Proofs.SourceDelivery
import ContentVault.Proofs.TreeDirectories

/-!
# Storing one value in a direct store

A value that was read to its end is put in its place unless something stands there.  The
temporary file that it was collected in is gone afterwards, as it is when reading fails.
-/

namespace ContentVault

namespace BlobStore

open Digest (Digester)
open FileTree (Extends layDirectories temporaryPlace)

variable {store : BlobStore} {tree larger : FileTree} {root : Place} {value : Bytes}

/-- The root of the store is a directory, and there is room for the paths of its files. -/
structure Stands (store : BlobStore) (tree : FileTree) (root : Place) : Prop where
  leads : tree.Leads store.root root
  here : tree.node? tree.here = some .directory
  short : store.root.utf8ByteSize + 47 < 4096

theorem Stands.extends (hstands : store.Stands tree root) (hextends : Extends tree larger) :
    store.Stands larger root where
  leads := hextends.leads hstands.leads
  here := by
    rw [hextends.here]
    exact hextends.node? hstands.here
  short := hstands.short

def filePlace (root : Place) (value : Bytes) : Place :=
  root ++ (shelves value ++ [(keyOf value).text])

def filePath (store : BlobStore) (value : Bytes) : String :=
  store.pathOf (shelves value ++ [(keyOf value).text])

theorem Stands.parse_filePath (hstands : store.Stands tree root) (value : Bytes) :
    ∃ path, Path.base store.root = .ok path ∧
      Path.parse (store.filePath value) =
        .ok ⟨path.isAbsolute, path.names ++ (shelves value ++ [(keyOf value).text]), false⟩ ∧
      Path.parse (store.pathOf (shelves value)) =
        .ok ⟨path.isAbsolute, path.names ++ shelves value, false⟩ := by
  obtain ⟨-, path, hbase, -⟩ := hstands.leads
  have hshort := hstands.short
  obtain ⟨hshelves, hnames⟩ := sizeOf_names value
  have hsize (names : List String) := (Path.utf8ByteSize_foldl_join_le store.root names).2
  refine ⟨path, hbase, ?_, ?_⟩
  · apply Path.parse_foldl_join hbase _ (by simp)
    · exact Nat.lt_of_le_of_lt (hsize _) (by omega)
    · intro name hname
      rcases List.mem_append.1 hname with hname | hname
      · exact (isName_of_mem_shelves hname).toIsPiece
      · rw [List.mem_singleton.1 hname]
        exact (isName_keyOf value).toIsPiece
  · apply Path.parse_foldl_join hbase _ (shelves_ne_nil value)
    · exact Nat.lt_of_le_of_lt (hsize _) (by omega)
    · exact fun name hname => (isName_of_mem_shelves hname).toIsPiece

/-- What stands at the path of the file of a value. -/
theorem Stands.nodeAt_filePath (hstands : store.Stands tree root) {node : Node} :
    tree.nodeAt (store.filePath value) = .ok node ↔
      tree.Walks root (shelves value) (root ++ shelves value) ∧
        tree.nodes[filePlace root value]? = some node := by
  obtain ⟨path, hbase, hparse, -⟩ := hstands.parse_filePath value
  exact hstands.leads.nodeAt_below hbase hparse (fun _ hname => isName_of_mem_shelves hname)
    (isName_keyOf value)

/-! ### Places -/

/-- A directory on the way to the file of a value. -/
def IsShelf (root : Place) (value : Bytes) (p : Place) : Prop :=
  ∃ before after, shelves value = before ++ after ∧ before ≠ [] ∧ p = root ++ before

theorem filePlace_ne_shelf {other : Bytes} {p : Place} (hp : IsShelf root other p) :
    p ≠ filePlace root value := by
  obtain ⟨before, after, hsplit, -, rfl⟩ := hp
  intro heq
  have hlength := congrArg List.length (List.append_cancel_left heq)
  have hcount := congrArg List.length hsplit
  rw [length_shelves, List.length_append] at hcount
  rw [List.length_append, length_shelves, List.length_singleton] at hlength
  omega

theorem temporaryPlace_ne_shelf {p : Place} {n : Nat} (hp : IsShelf root value p) :
    p ≠ temporaryPlace root n := by
  obtain ⟨before, after, hsplit, -, rfl⟩ := hp
  intro heq
  have hmem : ".tmp" ++ toString n ∈ shelves value := by
    rw [hsplit, List.append_cancel_left heq]
    exact List.mem_append_left _ List.mem_cons_self
  have hlength := (spec_of_mem_shelves hmem).1
  have hfour : ".tmp".length = 4 := rfl
  rw [String.length_append, hfour] at hlength
  omega

theorem temporaryPlace_ne_filePlace (root : Place) (value : Bytes) (n : Nat) :
    temporaryPlace root n ≠ filePlace root value := by
  intro heq
  have hlength := congrArg List.length (List.append_cancel_left heq)
  rw [List.length_append, length_shelves, List.length_singleton] at hlength
  omega

def ShelvesFree (tree : FileTree) (root : Place) (value : Bytes) : Prop :=
  ∀ p, IsShelf root value p → tree.nodes[p]? = none ∨ tree.nodes[p]? = some .directory

/-- The tree with the file of a value in its place. -/
def keep (root : Place) (value : Bytes) (tree : FileTree) : FileTree :=
  (layDirectories (shelves value) root tree).put (filePlace root value) (.file value)

theorem getElem?_keep_filePlace (root : Place) (value : Bytes) (tree : FileTree) :
    (keep root value tree).nodes[filePlace root value]? = some (.file value) := by
  rw [keep, FileTree.getElem?_put, if_pos rfl]

theorem getElem?_laid (tree : FileTree) {p : Place} (hp : IsShelf root value p) :
    (layDirectories (shelves value) root tree).nodes[p]? = some .directory := by
  obtain ⟨before, after, hsplit, hbefore, rfl⟩ := hp
  exact FileTree.getElem?_layDirectories hsplit hbefore

theorem getElem?_laid_of_not (tree : FileTree) {p : Place} (hp : ¬IsShelf root value p) :
    (layDirectories (shelves value) root tree).nodes[p]? = tree.nodes[p]? := by
  apply FileTree.getElem?_layDirectories_of_ne
  intro before after hsplit hbefore heq
  exact hp ⟨before, after, hsplit, hbefore, heq⟩

theorem getElem?_keep_shelf (tree : FileTree) {p : Place} (hp : IsShelf root value p) :
    (keep root value tree).nodes[p]? = some .directory := by
  rw [keep, FileTree.getElem?_put, if_neg (filePlace_ne_shelf hp).symm, getElem?_laid tree hp]

theorem getElem?_keep_of_ne {p : Place} (hfile : p ≠ filePlace root value)
    (hshelf : ¬IsShelf root value p) (tree : FileTree) :
    (keep root value tree).nodes[p]? = tree.nodes[p]? := by
  rw [keep, FileTree.getElem?_put, if_neg hfile.symm, getElem?_laid_of_not tree hshelf]

@[simp]
theorem here_layDirectories (names : List String) (place : Place) (tree : FileTree) :
    (layDirectories names place tree).here = tree.here := by
  induction names generalizing place tree with
  | nil => rfl
  | cons name names ih => rw [layDirectories, ih, FileTree.here_put]

theorem here_keep (root : Place) (value : Bytes) (tree : FileTree) :
    (keep root value tree).here = tree.here :=
  here_layDirectories _ _ _

section Settle

theorem settle_of_present (hstands : store.Stands tree root) {node : Node}
    (hwalks : tree.Walks root (shelves value) (root ++ shelves value))
    (hnode : tree.nodes[filePlace root value]? = some node) (temporary : Place) :
    store.settle (keyOf value) temporary tree = (.ok (keyOf value), tree.remove temporary) := by
  have hpath : tree.hasPath (store.pathOf (shelves value ++ [(keyOf value).text])) = true := by
    have hfound := hstands.nodeAt_filePath.2 ⟨hwalks, hnode⟩
    rw [filePath] at hfound
    rw [FileTree.hasPath, hfound]
  rw [settle, names?_keyOf]
  simp only [hpath, if_true]

/-- A temporary file is moved to its place, and the directories on the way are made. -/
theorem settle_of_absent (hstands : store.Stands tree root)
    (habsent : tree.nodes[filePlace root value]? = none) (hfree : ShelvesFree tree root value)
    {n : Nat} (hfile : tree.nodes[temporaryPlace root n]? = some (.file value)) :
    store.settle (keyOf value) (temporaryPlace root n) tree =
      (.ok (keyOf value), ((layDirectories (shelves value) root tree).remove
        (temporaryPlace root n)).put (filePlace root value) (.file value)) := by
  obtain ⟨path, hbase, hparse, hparse'⟩ := hstands.parse_filePath value
  have hnames (name : String) (hname : name ∈ shelves value) := isName_of_mem_shelves hname
  have hfree' (before after : List String) (hsplit : shelves value = before ++ after)
      (hbefore : before ≠ []) := hfree _ ⟨before, after, hsplit, hbefore, rfl⟩
  have hpath : tree.hasPath (store.pathOf (shelves value ++ [(keyOf value).text])) = false := by
    rw [FileTree.hasPath]
    split
    · rename_i node hfound
      have hnode := (hstands.nodeAt_filePath.1 hfound).2
      rw [habsent] at hnode
      cases hnode
    · rfl
  have hmakes := hstands.leads.makeDirectories_below hstands.here hbase hparse' hnames
    (shelves_ne_nil value) hfree'
  obtain ⟨hextends, hwalks⟩ := FileTree.walks_layDirectories hnames hfree'
  have habsent' :
      (layDirectories (shelves value) root tree).nodes[filePlace root value]? = none := by
    rw [getElem?_laid_of_not tree fun hshelf => filePlace_ne_shelf hshelf rfl, habsent]
  have htemporary : temporaryPlace root n ≠ [] :=
    List.append_ne_nil_of_right_ne_nil _ (List.cons_ne_nil _ _)
  have hmoved := (hextends.leads hstands.leads).moveFile_below hbase hparse hnames
    (isName_keyOf value) hwalks habsent' htemporary (hextends.nodes _ _ hfile)
  rw [filePath] at hmoved
  rw [settle, names?_keyOf]
  simp only [hpath, List.dropLast_concat, hmakes, Bool.false_eq_true, if_false, hmoved]
  rfl

end Settle

/-- Of a temporary file that was settled nothing is left but the file in its place. -/
theorem settled_eq_keep {n : Nat} {content : Node}
    (hnone : tree.nodes[temporaryPlace root n]? = none) :
    ((layDirectories (shelves value) root (tree.put (temporaryPlace root n) content)).remove
        (temporaryPlace root n)).put (filePlace root value) (.file value) =
      keep root value tree := by
  refine FileTree.eq_of_nodes ?_ fun p => ?_
  · rw [here_keep, FileTree.here_put, FileTree.here_remove, here_layDirectories, FileTree.here_put]
  · rw [FileTree.getElem?_put, FileTree.getElem?_remove]
    by_cases hfile : filePlace root value = p
    · rw [if_pos hfile, ← hfile, getElem?_keep_filePlace]
    · rw [if_neg hfile]
      by_cases hshelf : IsShelf root value p
      · rw [if_neg (temporaryPlace_ne_shelf hshelf).symm, getElem?_laid _ hshelf,
          getElem?_keep_shelf tree hshelf]
      · rw [getElem?_laid_of_not _ hshelf, FileTree.getElem?_put,
          getElem?_keep_of_ne (Ne.symm hfile) hshelf]
        split
        · rename_i htemporary
          rw [← htemporary, hnone]
        · rfl

/-! ### Storing -/

section Put

variable {source : Source} {stores : Stores}

/-- A source that fails leaves no trace. -/
theorem put_of_failed (hstands : store.Stands tree root) {error : IoError}
    (hyields : source.Yields (· = ·) copySize stores value (some error)) :
    ∃ source' stores', store.put source tree stores =
      (.error (.io error), source', tree, stores') := by
  obtain ⟨n, hnone, htemporary⟩ := hstands.leads.makeTemporary
  obtain ⟨-, hfailure⟩ := hyields.drain
  refine ⟨(source.drain copySize stores).source, (source.drain copySize stores).stores, ?_⟩
  simp only [put, htemporary, hfailure, FileTree.remove_put_of_free hnone]

/-- The digest of a value does not depend on how it is read. -/
theorem keyOf_flatten (pieces : List Bytes) :
    keyOf pieces.flatten =
      ⟨Hex.encode (pieces.foldl Digester.update (Digester.start .sha1)).finalize⟩ :=
  congrArg (ContentKey.mk ∘ Hex.encode) (Digester.finalize_fed_start .sha1 pieces).symm

/-- A source that ends is collected in a temporary file, which is then settled. -/
theorem put_of_ended (hstands : store.Stands tree root)
    (hyields : source.Yields (· = ·) copySize stores value none) :
    ∃ n source' stores', tree.nodes[temporaryPlace root n]? = none ∧
      store.put source tree stores =
        ((store.settle (keyOf value) (temporaryPlace root n)
            (tree.put (temporaryPlace root n) (.file value))).1, source',
          (store.settle (keyOf value) (temporaryPlace root n)
            (tree.put (temporaryPlace root n) (.file value))).2, stores') := by
  obtain ⟨n, hnone, htemporary⟩ := hstands.leads.makeTemporary
  obtain ⟨hbytes, hfailure⟩ := hyields.drain
  refine ⟨n, (source.drain copySize stores).source, (source.drain copySize stores).stores, hnone,
    ?_⟩
  have hkey := keyOf_flatten (source.drain copySize stores).pieces
  rw [← Source.Drained.bytes, hbytes] at hkey
  simp only [put, htemporary, hfailure, hbytes, hkey, FileTree.put_put]

/-- A value whose place is taken changes nothing. -/
theorem put_of_present (hstands : store.Stands tree root) {node : Node}
    (hwalks : tree.Walks root (shelves value) (root ++ shelves value))
    (hnode : tree.nodes[filePlace root value]? = some node)
    (hyields : source.Yields (· = ·) copySize stores value none) :
    ∃ source' stores', store.put source tree stores =
      (.ok (keyOf value), source', tree, stores') := by
  obtain ⟨n, source', stores', hnone, hput⟩ := put_of_ended hstands hyields
  have hextends : Extends tree (tree.put (temporaryPlace root n) (.file value)) :=
    FileTree.extends_put (.inl hnone)
  have hsettle := settle_of_present (hstands.extends hextends) (hextends.walks hwalks)
    (hextends.nodes _ _ hnode) (temporaryPlace root n)
  rw [FileTree.remove_put_of_free hnone] at hsettle
  rw [hsettle] at hput
  exact ⟨source', stores', hput⟩

/-- A value whose place is free is put there, and nothing else remains of it. -/
theorem put_of_absent (hstands : store.Stands tree root)
    (habsent : tree.nodes[filePlace root value]? = none) (hfree : ShelvesFree tree root value)
    (hyields : source.Yields (· = ·) copySize stores value none) :
    ∃ source' stores', store.put source tree stores =
      (.ok (keyOf value), source', keep root value tree, stores') := by
  obtain ⟨n, source', stores', hnone, hput⟩ := put_of_ended hstands hyields
  have hextends : Extends tree (tree.put (temporaryPlace root n) (.file value)) :=
    FileTree.extends_put (.inl hnone)
  have habsent' : (tree.put (temporaryPlace root n) (.file value)).nodes[filePlace root value]? =
      none := by
    rw [FileTree.getElem?_put, if_neg (temporaryPlace_ne_filePlace root value n), habsent]
  have hfree' : ShelvesFree (tree.put (temporaryPlace root n) (.file value)) root value := by
    intro p hp
    rw [FileTree.getElem?_put, if_neg (temporaryPlace_ne_shelf hp).symm]
    exact hfree p hp
  have hfile : (tree.put (temporaryPlace root n) (.file value)).nodes[temporaryPlace root n]? =
      some (.file value) := by
    rw [FileTree.getElem?_put, if_pos rfl]
  have hsettle := settle_of_absent (hstands.extends hextends) habsent' hfree' hfile
  rw [settled_eq_keep hnone] at hsettle
  rw [hsettle] at hput
  exact ⟨source', stores', hput⟩

end Put

/-- The file of a value is opened at its first byte. -/
theorem openRead_of_present (hstands : store.Stands tree root)
    (hwalks : tree.Walks root (shelves value) (root ++ shelves value))
    (hnode : tree.nodes[filePlace root value]? = some (.file value)) :
    store.openRead (keyOf value) tree = .ok (.file value) := by
  have hfound := hstands.nodeAt_filePath.2 ⟨hwalks, hnode⟩
  have hpath : store.path? (keyOf value) = some (store.filePath value) := by
    rw [path?, names?_keyOf]
    rfl
  have hopen : Source.ofFile tree (store.filePath value) = .ok (.file value) := by
    rw [Source.ofFile, FileTree.openFile, hfound]
    rfl
  simp only [openRead, hpath, hopen]

end BlobStore

end ContentVault
