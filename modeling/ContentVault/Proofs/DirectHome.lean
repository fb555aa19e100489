import ContentVault.Proofs.Homes

/-!
# Values beneath a root

A key that was not stored leads nowhere beneath the root, or to one of the directories on the
way to other values; a directory can be opened, but not be read.
-/

namespace ContentVault

open BlobStore (Lays NoCollision keyOf)

variable {store : BlobStore} {tree made : FileTree} {root : String} {place : Place}
  {done : List Bytes}

section Unstored

open FileTree (Leads)
open ContentVault.Path (IsName)

/-- A name for which there is a place is not too long. -/
theorem BlobStore.isName_of_step {name : String} {directory found : Place} (hne : name ≠ "")
    (hchars : ∀ c ∈ name.toList, isKeyChar c = true)
    (hstep : FileTree.step directory name = .ok found) : IsName name := by
  apply isName_of_isKeyChar hne hchars
  rw [← utf8ByteSize_of_isKeyChar hchars]
  by_contra hlong
  have hdot : name ≠ "." := by
    rintro rfl
    exact absurd (hchars '.' List.mem_cons_self) (by decide)
  have hdots : name ≠ ".." := by
    rintro rfl
    exact absurd (hchars '.' List.mem_cons_self) (by decide)
  rw [FileTree.step, if_neg hdot, if_neg hdots, if_pos (Nat.lt_of_not_le hlong)] at hstep
  cases hstep

/-- What stands under a key that was not stored is a directory. -/
theorem BlobStore.eq_directory_of_unstored (hstands : store.Stands tree place)
    (hlays : Lays place done tree) {key : ContentKey} (hkey : ∀ value ∈ done, keyOf value ≠ key)
    {path : String} (hpath : store.path? key = some path) {node : Node}
    (hfound : tree.nodeAt path = .ok node) : node = .directory := by
  obtain ⟨names, hnames, rfl⟩ := Option.map_eq_some_iff.1 hpath
  obtain ⟨hne, hchars, before, rfl, hbefore⟩ := names?_eq_some hnames
  obtain ⟨-, base, hbase, -⟩ := hstands.leads
  obtain ⟨spelled, found, hparse, hlocate, hnode, -⟩ := FileTree.exists_place_of_nodeAt hfound
  have hpieces : ∀ name ∈ before ++ [key.text], Path.IsPiece name := by
    intro name hname
    rcases List.mem_append.1 hname with hname | hname
    · exact (hbefore name hname).toIsPiece
    · rw [List.mem_singleton.1 hname]
      exact isPiece_of_isKeyChar hne hchars
  have hspelled := Path.parse_foldl_join hbase hpieces
    (List.append_ne_nil_of_right_ne_nil _ (List.cons_ne_nil _ _)) (Path.eq_of_parse_ok hparse).2.2
  cases hspelled.symm.trans hparse
  have hlast : IsName key.text := by
    rw [← List.append_assoc] at hlocate
    obtain ⟨directory, -, hstep⟩ := FileTree.locate_append_eq_ok_iff.1 hlocate
    exact isName_of_step hne hchars hstep
  obtain ⟨-, rfl⟩ := (hstands.leads.locate_below hbase hbefore hlast).1 hlocate
  rw [← List.append_assoc, FileTree.node?_append, List.append_assoc] at hnode
  by_contra hfile
  -- A file beneath the root is the file of a value, and its name is the key.
  have hnothing := hlays.nothing (before ++ [key.text])
    (List.append_ne_nil_of_right_ne_nil _ (List.cons_ne_nil _ _)) fun value hvalue => by
      refine ⟨fun heq => hkey value hvalue ?_, fun hshelf => hfile ?_⟩
      · have hnames := List.append_cancel_left heq
        have hlast := congrArg List.getLast? hnames
        simp only [List.getLast?_append, List.getLast?_singleton, Option.some_or,
          Option.some.injEq] at hlast
        exact (congrArg ContentKey.mk hlast).symm
      · exact Option.some.inj (hnode.symm.trans (hlays.shelf value hvalue _ hshelf))
  cases hnode.symm.trans hnothing

/-- A key that was not stored can at most be opened as a directory. -/
theorem BlobStore.eq_directory_of_openRead (hstands : store.Stands tree place)
    (hlays : Lays place done tree) {key : ContentKey} (hkey : ∀ value ∈ done, keyOf value ≠ key)
    {source : Source} (hopen : store.openRead key tree = .ok source) : source = .directory := by
  rw [openRead] at hopen
  split at hopen
  · cases hopen
  · rename_i path hpath
    cases hfound : tree.nodeAt path with
    | error failure =>
      have hfile : Source.ofFile tree path = .error failure := by
        rw [Source.ofFile, FileTree.openFile, hfound]
        rfl
      rw [hfile] at hopen
      split at hopen
      · rename_i heq
        cases heq
      · cases hopen
      · cases hopen
    | ok node =>
      have hdirectory := eq_directory_of_unstored hstands hlays hkey hpath hfound
      have hfile : Source.ofFile tree path = .ok .directory := by
        rw [Source.ofFile, FileTree.openFile, hfound, hdirectory]
        rfl
      rw [hfile] at hopen
      exact (Except.ok.inj hopen).symm

end Unstored

/-- A root that stands need not be made. -/
theorem holds_of_direct (hstands : BlobStore.Stands ⟨root⟩ tree place)
    (hlays : Lays place done tree) (hfits : ∀ value ∈ done, value.length < UInt64.size) :
    (Home.direct root place).Holds done tree := by
  have hcreate : BlobStore.create root tree = (.ok ⟨root⟩, tree) := by
    rw [BlobStore.create, hstands.leads.makeDirectories hstands.here]
  exact ⟨⟨tree, ⟨hstands.here, hcreate, hstands⟩, hlays⟩, hfits⟩

theorem openBackend_direct (hcreate : BlobStore.create root tree = (.ok ⟨root⟩, made)) :
    Config.openBackend ⟨.direct root⟩ (.ofTree tree) =
      (.ok (.direct 0 ⟨root⟩), { Vault.ofTree made with next := 1 }) := by
  have hcreate' : BlobStore.create root (Vault.ofTree tree).tree = (.ok ⟨root⟩, made) := hcreate
  simp only [Config.openBackend, Vault.openBlobStore, hcreate']
  rfl

theorem serves_direct (hstands : (Home.direct root place).Stands tree made)
    (hlays : Lays place done made) (hfits : ∀ value ∈ done, value.length < UInt64.size) :
    (Home.direct root place).Serves done tree (.direct 0 ⟨root⟩)
      { Vault.ofTree made with next := 1 } := by
  obtain ⟨hhere, hcreate, hmade⟩ := hstands
  have hextends : FileTree.Extends tree made :=
    (FileTree.leads_of_makeDirectories hhere (BlobStore.eq_of_create hcreate).2).1
  refine ⟨Home.leavesOthers_of_extends hextends, ?stores, ?found, ?missing, ?stays⟩
  case stores =>
    intro value hlength
    have hcopySize : 0 < BlobStore.copySize := by decide
    have hholds : BlobStore.Holds ⟨root⟩ place made done made := ⟨hmade, hlays, rfl, fun _ _ => rfl⟩
    have hyields := Source.yields_file (· = ·) hcopySize value ∅
    have hmore := BlobStore.extends_put hmade hlays hyields
    have hcompleted (hdistinct : NoCollision (done ++ [value])) :=
      hholds.completed hdistinct hyields
    obtain ⟨source', tree', stores', hput⟩ :=
      hholds.answers.completed (.file value) ∅ value hyields
    rw [hput] at hmore hcompleted
    refine ⟨source', { Vault.ofTree tree' with stores := stores', next := 1 }, ?_, ?_⟩
    · have hput' : BlobStore.put ⟨root⟩ (.file value) (Vault.ofTree made).tree
          (Vault.ofTree made).stores = (.ok (keyOf value), source', tree', stores') := hput
      simp only [Entry.store, hput']
      rfl
    · rw [Vault.tree_closeAll_of_nil rfl]
      refine ⟨Home.leavesOthers_of_extends (hextends.trans hmore), fun hdistinct => ?_⟩
      exact holds_of_direct (hcompleted hdistinct).stands (hcompleted hdistinct).lays
        (List.forall_mem_append.2 ⟨hfits, List.forall_mem_singleton.2 hlength⟩)
  case found =>
    intro value hvalue
    have hopen : BlobStore.openRead ⟨root⟩ (keyOf value) (Vault.ofTree made).tree =
        .ok (.file value) :=
      BlobStore.openRead_of_present hmade (hlays.walks hvalue) (hlays.file value hvalue)
    refine ⟨.file value, { Vault.ofTree made with next := 1 }, ?_, .file value _⟩
    simp only [Entry.openRead, hopen]
  case missing =>
    intro key hkey opened v' hopen
    simp only [Entry.openRead] at hopen
    split at hopen
    · cases hopen
    · rename_i heq
      cases hopen
      rw [BlobStore.eq_directory_of_openRead hmade hlays hkey heq]
      exact ⟨_, _, .directory _⟩
  case stays =>
    intro v' hreads
    rw [Vault.tree_closeAll_of_nil hreads.databases, hreads.tree]
    exact ⟨Home.leavesOthers_of_extends hextends, holds_of_direct hmade hlays hfits⟩

end ContentVault
