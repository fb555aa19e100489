import ContentVault.Proofs.TreeWalks
import ContentVault.Source

/-!
# Files in a changing tree

A file is opened at the place that its path spells, and written there unless a directory is in
the way.  As long as no directory is lost, a path spells the same place as before.
-/

namespace ContentVault.FileTree

variable {tree larger : FileTree} {place : Place} {text : String} {node : Node} {content : Bytes}

/-- The text is the path of a place and does not insist on a directory there. -/
def Spells (tree : FileTree) (text : String) (place : Place) : Prop :=
  ∃ path, Path.parse text = .ok path ∧ tree.locate path = .ok place ∧ path.endsInSlash = false

theorem Spells.unique {other : Place} (hspells : tree.Spells text place)
    (hother : tree.Spells text other) : place = other := by
  obtain ⟨path, hparse, hlocate, -⟩ := hspells
  obtain ⟨path', hparse', hlocate', -⟩ := hother
  cases hparse.symm.trans hparse'
  exact Except.ok.inj (hlocate.symm.trans hlocate')

theorem KeepsDirectories.spells (hkeeps : KeepsDirectories tree larger)
    (hspells : tree.Spells text place) : larger.Spells text place := by
  obtain ⟨path, hparse, hlocate, hends⟩ := hspells
  exact ⟨path, hparse, hkeeps.locate hlocate, hends⟩

/-- A file can be written at a place where no directory stands. -/
theorem placeForFile_eq_ok_iff : tree.placeForFile text = .ok place ↔
    tree.Spells text place ∧ tree.node? place ≠ some .directory := by
  rw [placeForFile]
  constructor
  · intro hplace
    split at hplace
    · cases hplace
    · rename_i path hparse
      split at hplace
      · cases hplace
      · rename_i found hlocate
        split at hplace
        · cases hplace
        · rename_i node hdirectory hnode
          split at hplace
          · cases hplace
          · rename_i hends
            cases hplace
            refine ⟨⟨path, hparse, hlocate, Bool.eq_false_iff.2 hends⟩, fun heq => ?_⟩
            exact hdirectory (Option.some.inj (hnode.symm.trans heq))
        · rename_i hnone
          split at hplace
          · cases hplace
          · rename_i hends
            cases hplace
            refine ⟨⟨path, hparse, hlocate, Bool.eq_false_iff.2 hends⟩, fun heq => ?_⟩
            cases hnone.symm.trans heq
  · rintro ⟨⟨path, hparse, hlocate, hends⟩, hnode⟩
    simp only [hparse, hlocate, hends]
    cases hfound : tree.node? place with
    | none => rfl
    | some node =>
      cases node with
      | directory => exact absurd hfound hnode
      | file => rfl
      | database => rfl

/-- Whatever is found stands at the place that the path leads to; a path that insists on a
directory finds no other node. -/
theorem exists_place_of_nodeAt (hfound : tree.nodeAt text = .ok node) :
    ∃ path place, Path.parse text = .ok path ∧ tree.locate path = .ok place ∧
      tree.node? place = some node ∧ (node ≠ .directory → path.endsInSlash = false) := by
  rw [nodeAt] at hfound
  split at hfound
  · cases hfound
  · rename_i path hparse
    rw [find] at hfound
    split at hfound
    · cases hfound
    · rename_i place hlocate
      refine ⟨path, place, hparse, hlocate, ?_⟩
      split at hfound
      · cases hfound
      · rename_i hplace
        cases hfound
        exact ⟨hplace, fun hnode => absurd rfl hnode⟩
      · rename_i hplace
        split at hfound
        · cases hfound
        · rename_i hends
          cases hfound
          exact ⟨hplace, fun _ => Bool.eq_false_iff.2 hends⟩

/-- A node that is not a directory is found at the place that the path spells. -/
theorem nodeAt_eq_ok_iff (hnode : node ≠ .directory) :
    tree.nodeAt text = .ok node ↔ ∃ place, tree.Spells text place ∧ tree.node? place = some node := by
  constructor
  · intro hfound
    obtain ⟨path, place, hparse, hlocate, hplace, hends⟩ := exists_place_of_nodeAt hfound
    exact ⟨place, ⟨path, hparse, hlocate, hends hnode⟩, hplace⟩
  · rintro ⟨place, ⟨path, hparse, hlocate, hends⟩, hplace⟩
    simp only [nodeAt, find, hparse, hlocate, hplace, hends]
    cases node with
    | directory => exact absurd rfl hnode
    | file => rfl
    | database => rfl

/-- What can be read is what stands at the place that the path spells. -/
theorem openFile_eq_ok_iff : tree.openFile text = .ok (some content) ↔
    ∃ place node, tree.Spells text place ∧ tree.node? place = some node ∧
      node.content? = some content := by
  have hreadable {node : Node} (hcontent : node.content? = some content) : node ≠ .directory := by
    rintro rfl
    cases hcontent
  constructor
  · intro hopen
    obtain ⟨node, hfound, hcontent⟩ : ∃ node, tree.nodeAt text = .ok node ∧
        node.content? = some content := by
      rw [openFile] at hopen
      cases hfound : tree.nodeAt text with
      | error failure =>
        rw [hfound] at hopen
        cases hopen
      | ok node =>
        rw [hfound] at hopen
        exact ⟨node, rfl, Except.ok.inj hopen⟩
    obtain ⟨place, hspells, hplace⟩ := (nodeAt_eq_ok_iff (hreadable hcontent)).1 hfound
    exact ⟨place, node, hspells, hplace, hcontent⟩
  · rintro ⟨place, node, hspells, hplace, hcontent⟩
    rw [openFile, (nodeAt_eq_ok_iff (hreadable hcontent)).2 ⟨place, hspells, hplace⟩]
    exact congrArg Except.ok hcontent

/-- A text that spells no path opens no file. -/
theorem ne_empty_of_openFile (hopen : tree.openFile text = .ok (some content)) : text ≠ "" := by
  obtain ⟨-, -, ⟨path, hparse, -⟩, -⟩ := openFile_eq_ok_iff.1 hopen
  exact (Path.eq_of_parse_ok hparse).2.1

theorem ofFile_of_openFile (hopen : tree.openFile text = .ok (some content)) :
    Source.ofFile tree text = .ok (.file content) := by
  rw [Source.ofFile, hopen]

section Put

theorem node?_put (hplace : place ≠ []) (tree : FileTree) (node : Node) (p : Place) :
    (tree.put place node).node? p = if place = p then some node else tree.node? p := by
  rw [FileTree.node?, FileTree.node?]
  by_cases hnil : p = []
  · rw [if_pos hnil, if_pos hnil, hnil, if_neg hplace]
  · rw [if_neg hnil, if_neg hnil, getElem?_put]

theorem ne_nil_of_placeForFile (hplace : tree.placeForFile text = .ok place) : place ≠ [] := by
  rintro rfl
  exact (placeForFile_eq_ok_iff.1 hplace).2 rfl

/-- A file that was written can be written again. -/
theorem placeForFile_put (hplace : tree.placeForFile text = .ok place) (hnode : node ≠ .directory) :
    (tree.put place node).placeForFile text = .ok place := by
  obtain ⟨hspells, hfree⟩ := placeForFile_eq_ok_iff.1 hplace
  refine placeForFile_eq_ok_iff.2 ⟨(keepsDirectories_put hfree).spells hspells, ?_⟩
  rw [node?_put (ne_nil_of_placeForFile hplace), if_pos rfl]
  exact fun heq => hnode (Option.some.inj heq)

end Put

end ContentVault.FileTree
