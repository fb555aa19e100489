import ContentVault.Config.Open
import ContentVault.Proofs.ConfigCodec
import ContentVault.Proofs.TreeDirectories
import ContentVault.Proofs.TreeFiles

/-!
# Configurations in files

A configuration that was written to a file is loaded from there.  What was loaded from a file can
be written over it, and is loaded again.
-/

namespace ContentVault

namespace FileTree

variable {tree larger : FileTree} {place : Place} {text : String} {content : Bytes}

theorem openFile_put (hplace : tree.placeForFile text = .ok place) (content : Bytes) :
    (tree.put place (.file content)).openFile text = .ok (some content) := by
  obtain ⟨hspells, hfree⟩ := placeForFile_eq_ok_iff.1 hplace
  refine openFile_eq_ok_iff.2 ⟨place, .file content, (keepsDirectories_put hfree).spells hspells,
    ?_, rfl⟩
  rw [node?_put (ne_nil_of_placeForFile hplace), if_pos rfl]

/-- A file that was written has the content that was written to it. -/
theorem openFile_of_writeFile (hwrite : tree.writeFile text content = (.ok (), larger)) :
    larger.openFile text = .ok (some content) := by
  rw [writeFile] at hwrite
  split at hwrite
  · cases hwrite
  · split at hwrite
    · cases hwrite
    · split at hwrite
      · cases hwrite
      · rename_i hplace
        cases hwrite
        exact openFile_put hplace content

/-- A path that spells a place has its directories, so only the file is written. -/
theorem Spells.writeFile (hspells : tree.Spells text place)
    (hnode : tree.node? place ≠ some .directory) (hhere : tree.node? tree.here = some .directory)
    (content : Bytes) : tree.writeFile text content = (.ok (), tree.put place (.file content)) := by
  have hplace := placeForFile_eq_ok_iff.2 ⟨hspells, hnode⟩
  obtain ⟨⟨isAbsolute, names, endsInSlash⟩, hparse, hlocate, -⟩ := hspells
  have hstart (names : List String) :
      tree.node? (tree.start ⟨isAbsolute, names, endsInSlash⟩) = some .directory :=
    node?_start hhere
  rcases List.eq_nil_or_concat names with rfl | ⟨init, last, hnames⟩
  · cases hlocate
    exact absurd (hstart []) hnode
  · rw [List.concat_eq_append] at hnames
    subst hnames
    obtain ⟨directory, hwalks, hstep⟩ := locate_append_eq_ok_iff.1 hlocate
    -- The dot would stay in the directory that the other names lead to.
    have hlast : last ≠ "." := by
      rintro rfl
      cases hstep
      exact hnode (hwalks.node? (hstart _))
    have hplain := (walks_plainNames_iff (hstart init)).2 hwalks
    have hmakes := makeAlong_of_walks true false hplain []
    rw [List.append_nil] at hmakes
    have hsame : tree.start ⟨isAbsolute, init ++ [last], endsInSlash⟩ =
        tree.start ⟨isAbsolute, init, endsInSlash⟩ := rfl
    rw [FileTree.writeFile, hparse]
    simp only [Path.plainNames_append (List.forall_mem_singleton.2 hlast), List.dropLast_concat,
      hsame, hmakes, makeAlong, hplace]

end FileTree

namespace Config

variable {tree tree' : FileTree} {path : String} {config : Config}

theorem load_eq_ok_iff : load path tree = .ok config ↔
    ∃ content, tree.openFile path = .ok (some content) ∧ decode content = .ok config := by
  rw [load]
  constructor
  · intro hload
    split at hload
    · cases hload
    · cases hload
    · rename_i content hopen
      split at hload
      · cases hload
      · rename_i hdecode
        cases hload
        exact ⟨content, hopen, hdecode⟩
  · rintro ⟨content, hopen, hdecode⟩
    simp only [hopen, hdecode]

/-- A configuration is loaded from any file that spells it, so it is from one that it could be
written to.  In particular one that was loaded from a file, in whatever form, is loaded again once
it was written over it, which changes nothing else. -/
theorem load_of_written :
    (∀ config : Config, config.SpelledBy (Bytes.ofText config.render)) ∧
    (∀ (config : Config) (tree : FileTree) (path : String) (content : Bytes),
      config.SpelledBy content → tree.openFile path = .ok (some content) →
        load path tree = .ok config) ∧
    (∀ (config : Config) (tree tree' : FileTree) (path : String),
      tree.writeFile path (Bytes.ofText config.render) = (.ok (), tree') →
        load path tree' = .ok config) ∧
    (∀ (config : Config) (tree : FileTree) (path : String),
      load path tree = .ok config → tree.node? tree.here = some .directory →
        ∃ place tree', tree.writeFile path (Bytes.ofText config.render) = (.ok (), tree') ∧
          load path tree' = .ok config ∧
          ∀ other, other ≠ place → tree'.node? other = tree.node? other) := by
  have hspells (config : Config) (tree : FileTree) (path : String) (content : Bytes)
      (hspelled : config.SpelledBy content) (hopen : tree.openFile path = .ok (some content)) :
      load path tree = .ok config :=
    load_eq_ok_iff.2 ⟨content, hopen, hspelled.decode⟩
  have hwritten (config : Config) (tree tree' : FileTree) (path : String)
      (hwrite : tree.writeFile path (Bytes.ofText config.render) = (.ok (), tree')) :
      load path tree' = .ok config :=
    hspells config tree' path _ config.spelledBy_render (FileTree.openFile_of_writeFile hwrite)
  refine ⟨spelledBy_render, hspells, hwritten, fun config tree path hload hhere => ?_⟩
  obtain ⟨content, hopen, -⟩ := load_eq_ok_iff.1 hload
  obtain ⟨place, node, hspells, hplace, hcontent⟩ := FileTree.openFile_eq_ok_iff.1 hopen
  have hnode : tree.node? place ≠ some .directory := by
    intro hdirectory
    cases hplace.symm.trans hdirectory
    cases hcontent
  have hwrite := hspells.writeFile hnode hhere (Bytes.ofText config.render)
  refine ⟨place, _, hwrite, hwritten config tree _ path hwrite, fun other hother => ?_⟩
  have hne : place ≠ [] := by
    rintro rfl
    exact hnode rfl
  rw [FileTree.node?_put hne, if_neg hother.symm]

/-- A configuration whose texts need escapes and whose properties are named like members. -/
def escaped : Config where
  backend := .chunked (.database "a\"\\\n\u0000é") ⟨18446744073709551615, by decide⟩
    ((∅ : Properties).insertMany [("kind", "direct"), ("type", "\"\u0007\"")])

/-- A file with a configuration that leaves out what is standard. -/
def listedTree : FileTree :=
  FileTree.empty.put ["", "c"]
    (.file (Bytes.ofText "[\x7b\"store\":[\"memory\"],\"kind\":\"chunked\"\x7d]"))

/-- One configuration is written to a new file, and another over the file it was loaded from. -/
theorem load_of_written_newFile :
    (∃ tree', FileTree.empty.writeFile "c" (Bytes.ofText escaped.render) = (.ok (), tree') ∧
      tree'.openFile "c" = .ok (some (Bytes.ofText escaped.render)) ∧
      load "c" tree' = .ok escaped ∧ load "./c" tree' = .ok escaped) ∧
    load "c" listedTree = .ok standard ∧
    ∃ tree', listedTree.writeFile "c" (Bytes.ofText standard.render) = (.ok (), tree') ∧
      load "c" tree' = .ok standard := by
  have hlisted : load "c" listedTree = .ok standard :=
    load_eq_ok_iff.2 ⟨_, FileTree.openFile_put rfl _, by decide +kernel⟩
  obtain ⟨hspelled, hspells, hwritten, hagain⟩ := load_of_written
  obtain ⟨-, tree', hwrite, hload, -⟩ := hagain standard listedTree "c" hlisted rfl
  refine ⟨⟨_, rfl, FileTree.openFile_put rfl _, hwritten escaped FileTree.empty _ "c" rfl, ?_⟩,
    hlisted, tree', hwrite, hload⟩
  exact hspells escaped _ "./c" _ (hspelled escaped) rfl

end Config

end ContentVault
