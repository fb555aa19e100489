import ContentVault.Proofs.ProgramSteps

/-!
# Homes

Between two runs of the program the values live in their home, the file of a database or the
tree beneath a root.  Whoever opens the home finds all values that were stored there before,
each under its key, and nothing under any other key.
-/

namespace ContentVault

open BlobStore (Lays NoCollision keyOf)

/-- Where a configuration keeps its values from run to run, with the place that the path leads
to. -/
inductive Home where
  | database (path : String) (place : Place)
  | direct (root : String) (place : Place)

namespace Home

/-- The configuration describes the home.  The size of chunks is free, as long as there is a
buffer for it. -/
def Describes : Home → Config → Prop
  | .database path _, config =>
    ∃ chunkSize properties, chunkSize.IsAllocatable ∧
      config.backend = .chunked (.database path) chunkSize properties
  | .direct root _, config => config.backend = .direct root

/-- The places that the home has for itself. -/
def Owns : Home → Place → Prop
  | .database _ place, p => p = place
  | .direct _ place, p => ∃ below, below ≠ [] ∧ p = place ++ below

/-- The home can be opened: its path leads to its place.  A missing root is made first, and
there is room for the paths of files beneath it. -/
def Stands : Home → FileTree → FileTree → Prop
  | .database path place, tree, made => made = tree ∧ tree.placeForFile path = .ok place
  | .direct root place, tree, made =>
    tree.node? tree.here = some .directory ∧ BlobStore.create root tree = (.ok ⟨root⟩, made) ∧
      BlobStore.Stands ⟨root⟩ made place

def Keeps : Home → List Bytes → FileTree → Prop
  | .database _ place, done, tree =>
    ∃ contents, (Vault.ofTree tree).databaseAt? place = some contents ∧ contents.HoldsAll done
  | .direct _ place, done, tree => Lays place done tree

structure Holds (home : Home) (done : List Bytes) (tree : FileTree) : Prop where
  stands : ∃ made, home.Stands tree made ∧ home.Keeps done made
  fits : ∀ value ∈ done, value.length < UInt64.size

def Fresh (home : Home) (tree : FileTree) : Prop :=
  ∃ made, home.Stands tree made ∧ ∀ p, home.Owns p → made.nodes[p]? = none

/-- From one tree to the other nothing has changed that belongs to the home. -/
def Spared (home : Home) (tree changed : FileTree) : Prop :=
  ∃ made made', home.Stands tree made ∧ home.Stands changed made' ∧
    ∀ p, home.Owns p → made'.nodes[p]? = made.nodes[p]?

variable {home : Home} {done : List Bytes} {tree changed made made' : FileTree}

theorem Stands.unique (hstands : home.Stands tree made) (hother : home.Stands tree made') :
    made' = made := by
  cases home with
  | database path place => rw [hstands.1, hother.1]
  | direct root place => exact congrArg Prod.snd (hother.2.1.symm.trans hstands.2.1)

theorem databaseAt?_ofTree {place : Place} (hplace : place ≠ []) (tree : FileTree) :
    (Vault.ofTree tree).databaseAt? place = match tree.nodes[place]? with
      | none => some ∅
      | some (.file []) => some ∅
      | some (.database contents) => some contents
      | some _ => none := by
  rewrite [Vault.databaseAt?, FileTree.node?, if_neg hplace]
  rfl

/-- What a home has is decided by its own places. -/
theorem Keeps.congr (hstands : home.Stands tree made)
    (hsame : ∀ p, home.Owns p → made'.nodes[p]? = made.nodes[p]?) (hkeeps : home.Keeps done made) :
    home.Keeps done made' := by
  cases home with
  | database path place =>
    obtain ⟨rfl, hplace⟩ := hstands
    have hne := FileTree.ne_nil_of_placeForFile hplace
    obtain ⟨contents, hcontents, hall⟩ := hkeeps
    refine ⟨contents, ?_, hall⟩
    rw [databaseAt?_ofTree hne] at hcontents ⊢
    rw [hsame place rfl]
    exact hcontents
  | direct root place =>
    have hbelow {below : Place} (hne : below ≠ []) := hsame (place ++ below) ⟨below, hne, rfl⟩
    constructor
    · intro value hvalue
      obtain ⟨below, hne, heq⟩ := BlobStore.filePlace_eq place value
      rw [heq, hbelow hne, ← heq]
      exact hkeeps.file value hvalue
    · rintro value hvalue p ⟨before, after, hsplit, hne, rfl⟩
      rw [hbelow hne]
      exact hkeeps.shelf value hvalue _ ⟨before, after, hsplit, hne, rfl⟩
    · intro below hne hothers
      rw [hbelow hne]
      exact hkeeps.nothing below hne hothers

theorem Holds.of_fresh (hfresh : home.Fresh tree) : home.Holds [] tree := by
  obtain ⟨made, hstands, hnothing⟩ := hfresh
  refine ⟨⟨made, hstands, ?_⟩, fun _ hvalue => absurd hvalue List.not_mem_nil⟩
  cases home with
  | database path place =>
    obtain ⟨rfl, hplace⟩ := hstands
    refine ⟨∅, ?_, .empty⟩
    rw [databaseAt?_ofTree (FileTree.ne_nil_of_placeForFile hplace), hnothing place rfl]
  | direct root place =>
    exact ⟨fun _ hvalue => absurd hvalue List.not_mem_nil,
      fun _ hvalue => absurd hvalue List.not_mem_nil,
      fun below hne _ => hnothing _ ⟨below, hne, rfl⟩⟩

theorem Holds.spared (hholds : home.Holds done tree) (hspared : home.Spared tree changed) :
    home.Holds done changed := by
  obtain ⟨made, made', hstands, hstands', hsame⟩ := hspared
  obtain ⟨⟨found, hfound, hkeeps⟩, hfits⟩ := hholds
  rw [hstands.unique hfound] at hkeeps
  exact ⟨⟨made', hstands', hkeeps.congr hstands hsame⟩, hfits⟩

/-! ### What lies elsewhere -/

/-- Nothing but what belongs to the home is lost. -/
structure LeavesOthers (home : Home) (tree after : FileTree) : Prop where
  directories : FileTree.KeepsDirectories tree after
  nodes : ∀ p node, ¬home.Owns p → tree.node? p = some node → after.node? p = some node

theorem leavesOthers_of_extends (hextends : FileTree.Extends tree changed) :
    home.LeavesOthers tree changed :=
  ⟨hextends.keepsDirectories, fun _ _ _ hnode => hextends.node? hnode⟩

theorem LeavesOthers.refl (tree : FileTree) : home.LeavesOthers tree tree :=
  leavesOthers_of_extends (.refl tree)

theorem leavesOthers_put {path : String} {place : Place}
    (hplace : tree.placeForFile path = .ok place) (node : Node) :
    (Home.database path place).LeavesOthers tree (tree.put place node) where
  directories := FileTree.keepsDirectories_put (FileTree.placeForFile_eq_ok_iff.1 hplace).2
  nodes := by
    intro p found hp hnode
    rw [FileTree.node?_put (FileTree.ne_nil_of_placeForFile hplace), if_neg (Ne.symm hp), hnode]

/-- The file has this content and does not belong to the home. -/
structure Offers (home : Home) (tree : FileTree) (file : String) (content : Bytes) : Prop where
  opens : tree.openFile file = .ok (some content)
  outside : ∀ p, tree.placeForFile file = .ok p → ¬home.Owns p

theorem Offers.of_spells {file : String} {content : Bytes} {p : Place} {node : Node}
    (hspells : tree.Spells file p) (hnode : tree.node? p = some node)
    (hcontent : node.content? = some content) (hp : ¬home.Owns p) :
    home.Offers tree file content where
  opens := FileTree.openFile_eq_ok_iff.2 ⟨p, node, hspells, hnode, hcontent⟩
  outside := by
    intro p' hp'
    rw [(FileTree.placeForFile_eq_ok_iff.1 hp').1.unique hspells]
    exact hp

theorem Offers.of_leavesOthers {file : String} {content : Bytes}
    (hoffers : home.Offers tree file content) (hleaves : home.LeavesOthers tree changed) :
    home.Offers changed file content := by
  obtain ⟨p, node, hspells, hnode, hcontent⟩ := FileTree.openFile_eq_ok_iff.1 hoffers.opens
  have hfile : tree.node? p ≠ some .directory := by
    intro hdirectory
    cases hnode.symm.trans hdirectory
    cases hcontent
  have hp := hoffers.outside p (FileTree.placeForFile_eq_ok_iff.2 ⟨hspells, hfile⟩)
  exact .of_spells (hleaves.directories.spells hspells) (hleaves.nodes p node hp hnode) hcontent hp

/-- What a run finds once it has opened its home: all that was stored, and nothing else.  What
it stores joins the rest, what it only reads stays, and what lies elsewhere is left alone. -/
structure Serves (home : Home) (done : List Bytes) (tree : FileTree) (backend : Backend)
    (v : Vault) : Prop where
  opened : home.LeavesOthers tree v.tree
  stores : ∀ value : Bytes, value.length < UInt64.size →
    ∃ source' v', (Entry.mk backend (keyOf value)).store (.file value) v =
        (.ok (keyOf value), source', v') ∧
      home.LeavesOthers tree v'.closeAll.tree ∧
      (NoCollision (done ++ [value]) → home.Holds (done ++ [value]) v'.closeAll.tree)
  found : ∀ value ∈ done, ∃ opened v', (Entry.mk backend (keyOf value)).openRead v =
    (.ok opened, v') ∧ opened.Promises v'.stores value none
  missing : ∀ key : ContentKey, (∀ value ∈ done, keyOf value ≠ key) → ∀ opened v',
    (Entry.mk backend key).openRead v = (.ok opened, v') →
    ∃ bytes error, opened.Promises v'.stores bytes (some error)
  stays : ∀ v', Vault.OnlyReads v v' →
    home.LeavesOthers tree v'.closeAll.tree ∧ home.Holds done v'.closeAll.tree

end Home

end ContentVault
