import ContentVault.Proofs.KeySeparation
import ContentVault.Proofs.TreeWalks
import Mathlib.Data.List.Nodup
import Mathlib.Data.List.Perm.Subperm

/-!
# Making directories and files

Directories that stand are walked through, and those that are missing are made on the way.
A temporary file gets a name that nothing has, so taking it away leaves no trace.
-/

namespace ContentVault.FileTree

open ContentVault.Path (IsName)

variable {tree larger : FileTree} {place next : Place} {name : String} {names : List String}
  {makesLast made : Bool}

theorem put_of_getElem? {node : Node} (hnode : tree.nodes[place]? = some node) :
    tree.put place node = tree := by
  refine eq_of_nodes rfl fun p => ?_
  rw [getElem?_put]
  split
  · rename_i heq
    rw [← heq, hnode]
  · rfl

theorem put_put (tree : FileTree) (place : Place) (first second : Node) :
    (tree.put place first).put place second = tree.put place second := by
  refine eq_of_nodes rfl fun p => ?_
  simp only [getElem?_put]
  split <;> rfl

theorem remove_put_of_free {node : Node} (hfree : tree.nodes[place]? = none) :
    (tree.put place node).remove place = tree := by
  refine eq_of_nodes rfl fun p => ?_
  rw [getElem?_remove, getElem?_put]
  split
  · rename_i heq
    rw [← heq, hfree]
  · rfl

/-! ### Directories -/

/-- Where the directories stand, nothing is made. -/
theorem makeAlong_of_walks (makesLast made : Bool) (hwalks : tree.Walks place names next)
    (rest : List String) :
    makeAlong makesLast made (names ++ rest) place tree =
      makeAlong makesLast made rest next tree := by
  induction names generalizing place with
  | nil => rw [walks_nil.1 hwalks, List.nil_append]
  | cons name names ih =>
    obtain ⟨reached, hstep, hnode, hrest⟩ := walks_cons.1 hwalks
    rw [List.cons_append, makeAlong, hstep]
    simp only [hnode]
    exact ih hrest

/-- The tree with a directory for each of the names, one beneath the other. -/
def layDirectories : List String → Place → FileTree → FileTree
  | [], _, tree => tree
  | name :: names, place, tree =>
    layDirectories names (place ++ [name]) (tree.put (place ++ [name]) .directory)

theorem getElem?_layDirectories_of_ne {p : Place}
    (hne : ∀ before after, names = before ++ after → before ≠ [] → p ≠ place ++ before) :
    (layDirectories names place tree).nodes[p]? = tree.nodes[p]? := by
  induction names generalizing place tree with
  | nil => rfl
  | cons name names ih =>
    rw [layDirectories, ih, getElem?_put, if_neg]
    · exact (hne [name] names rfl (List.cons_ne_nil _ _)).symm
    · intro before after hsplit _
      rw [List.append_assoc]
      exact hne (name :: before) after (by rw [hsplit, List.cons_append]) (List.cons_ne_nil _ _)

theorem getElem?_layDirectories {before after : List String} (hsplit : names = before ++ after)
    (hbefore : before ≠ []) :
    (layDirectories names place tree).nodes[place ++ before]? = some .directory := by
  induction names generalizing place tree before with
  | nil => exact absurd (List.append_eq_nil_iff.1 hsplit.symm).1 hbefore
  | cons name names ih =>
    obtain ⟨first, before, rfl⟩ := List.exists_cons_of_ne_nil hbefore
    rw [List.cons_append, List.cons.injEq] at hsplit
    obtain ⟨rfl, hsplit⟩ := hsplit
    rw [layDirectories]
    by_cases hnil : before = []
    · rw [hnil, getElem?_layDirectories_of_ne, getElem?_put, if_pos rfl]
      intro before' _ _ hbefore' heq
      exact hbefore' (List.self_eq_append_right.1 heq)
    · have hplace : place ++ name :: before = place ++ [name] ++ before := by
        rw [List.append_assoc, List.singleton_append]
      rw [hplace]
      exact ih hsplit hnil

/-- What is missing of plain names is made if nothing else is in the way. -/
theorem makeAlong_of_names (hnames : ∀ name ∈ names, IsName name)
    (hfree : ∀ before after, names = before ++ after → before ≠ [] →
      tree.nodes[place ++ before]? = none ∨ tree.nodes[place ++ before]? = some .directory) :
    makeAlong true made names place tree = (.ok (), layDirectories names place tree) := by
  induction names generalizing place tree made with
  | nil => rfl
  | cons name names ih =>
    have hrest := hfree [name] names rfl (List.cons_ne_nil _ _)
    have hlater (before after : List String) (hsplit : names = before ++ after)
        (hbefore : before ≠ []) :
        (tree.put (place ++ [name]) .directory).nodes[place ++ [name] ++ before]? = none ∨
          (tree.put (place ++ [name]) .directory).nodes[place ++ [name] ++ before]? =
            some .directory := by
      rw [getElem?_put]
      split
      · exact .inr rfl
      · rw [List.append_assoc]
        exact hfree (name :: before) after (by rw [hsplit, List.cons_append])
          (List.cons_ne_nil _ _)
    have hmade (made : Bool) : makeAlong true made names (place ++ [name])
        (tree.put (place ++ [name]) .directory) =
          (.ok (), layDirectories names (place ++ [name]) (tree.put (place ++ [name]) .directory)) :=
      ih (fun name' hmem => hnames name' (List.mem_cons_of_mem name hmem)) hlater
    rw [makeAlong, step_of_isName (hnames name List.mem_cons_self), layDirectories]
    simp only [node?_append]
    rcases hrest with hnone | hdirectory
    · simp only [hnone, Bool.true_or, if_true]
      exact hmade true
    · simp only [hdirectory]
      rw [put_of_getElem? hdirectory] at hmade ⊢
      exact hmade made

/-- Directories that could be made can be walked through, and nothing is lost. -/
theorem walks_of_makeAlong (hmakes : makeAlong makesLast made names place tree = (.ok (), larger)) :
    Extends tree larger ∧ ∃ next, larger.Walks place names next := by
  induction names generalizing place tree made with
  | nil =>
    cases hmakes
    exact ⟨.refl _, place, walks_nil.2 rfl⟩
  | cons name names ih =>
    rw [makeAlong] at hmakes
    cases hstep : step place name with
    | error failure =>
      rw [hstep] at hmakes
      cases hmakes
    | ok reached =>
      rw [hstep] at hmakes
      simp only at hmakes
      cases hnode : tree.node? reached with
      | none =>
        rw [hnode] at hmakes
        simp only at hmakes
        split at hmakes
        · obtain ⟨hextends, next, hwalks⟩ := ih hmakes
          have hreached : reached ≠ [] := by
            intro hnil
            rw [hnil] at hnode
            cases hnode
          have hput : Extends tree (tree.put reached .directory) := by
            rw [node?, if_neg hreached] at hnode
            exact extends_put (.inl hnode)
          have hdirectory : (tree.put reached .directory).node? reached = some .directory := by
            rw [node?, if_neg hreached, getElem?_put, if_pos rfl]
          exact ⟨hput.trans hextends, next,
            walks_cons.2 ⟨reached, hstep, hextends.node? hdirectory, hwalks⟩⟩
        · cases hmakes
      | some node =>
        rw [hnode] at hmakes
        cases node with
        | directory =>
          obtain ⟨hextends, next, hwalks⟩ := ih hmakes
          exact ⟨hextends, next, walks_cons.2 ⟨reached, hstep, hextends.node? hnode, hwalks⟩⟩
        | file content => cases hmakes
        | database contents => cases hmakes

/-- Directories that are laid can be walked through, and nothing is lost. -/
theorem walks_layDirectories (hnames : ∀ name ∈ names, IsName name)
    (hfree : ∀ before after, names = before ++ after → before ≠ [] →
      tree.nodes[place ++ before]? = none ∨ tree.nodes[place ++ before]? = some .directory) :
    Extends tree (layDirectories names place tree) ∧
      (layDirectories names place tree).Walks place names (place ++ names) := by
  have hmakes : makeAlong true false names place tree = (.ok (), layDirectories names place tree) :=
    makeAlong_of_names hnames hfree
  obtain ⟨hextends, next, hwalks⟩ := walks_of_makeAlong hmakes
  have hnext := hwalks.eq_append hnames
  rw [hnext] at hwalks
  exact ⟨hextends, hwalks⟩

/-- The plain names of a path lead where its names lead. -/
theorem walks_plainNames_iff {path : Path} (hstart : tree.node? (tree.start path) = some .directory) :
    tree.Walks (tree.start path) path.plainNames next ↔
      tree.Walks (tree.start path) path.names next := by
  obtain ⟨isAbsolute, names, endsInSlash⟩ := path
  cases names with
  | nil => rfl
  | cons first rest =>
    simp only [Path.plainNames]
    split
    · rename_i hfirst
      rw [walks_filter_iff hstart, walks_cons]
      have hstep : step (tree.start ⟨isAbsolute, first :: rest, endsInSlash⟩) first =
          .ok (tree.start ⟨isAbsolute, first :: rest, endsInSlash⟩) := if_pos hfirst.1
      constructor
      · intro hwalks
        exact ⟨_, hstep, hstart, hwalks⟩
      · rintro ⟨reached, hstep', -, hwalks⟩
        cases hstep.symm.trans hstep'
        exact hwalks
    · rw [walks_cons, walks_cons]
      constructor
      · rintro ⟨reached, hstep, hnode, hwalks⟩
        exact ⟨reached, hstep, hnode, (walks_filter_iff hnode).1 hwalks⟩
      · rintro ⟨reached, hstep, hnode, hwalks⟩
        exact ⟨reached, hstep, hnode, (walks_filter_iff hnode).2 hwalks⟩

theorem node?_start {path : Path} (hhere : tree.node? tree.here = some .directory) :
    tree.node? (tree.start path) = some .directory := by
  rw [start]
  split
  · rfl
  · exact hhere

section Leads

variable {text : String}

theorem base_of_ne {text : String} (hne : text ≠ "") : Path.base text = Path.parse text :=
  if_neg hne

/-- A directory that stands already is as good as a new one. -/
theorem Leads.makeDirectories (hleads : tree.Leads text place)
    (hhere : tree.node? tree.here = some .directory) :
    tree.makeDirectories text = (.ok (), tree) := by
  rw [FileTree.makeDirectories]
  split
  · rfl
  · rename_i hne
    obtain ⟨-, path, hbase, hwalks⟩ := hleads
    rw [base_of_ne hne] at hbase
    have hplain := (walks_plainNames_iff (node?_start hhere)).2 hwalks
    have hmakes := makeAlong_of_walks (path.names.getLast? ≠ some ".") false hplain []
    rw [List.append_nil] at hmakes
    simp only [hbase]
    exact hmakes

/-- Once a directory was made its path leads to it, and nothing is lost. -/
theorem leads_of_makeDirectories (hhere : tree.node? tree.here = some .directory)
    (hmakes : tree.makeDirectories text = (.ok (), larger)) :
    Extends tree larger ∧ ∃ place, larger.Leads text place := by
  rw [FileTree.makeDirectories] at hmakes
  split at hmakes
  · rename_i hempty
    cases hmakes
    refine ⟨.refl _, _, hhere, ⟨false, [], false⟩, ?_, walks_nil.2 rfl⟩
    rw [Path.base, if_pos hempty]
  · rename_i hne
    cases hparse : Path.parse text with
    | error failure =>
      rw [hparse] at hmakes
      cases hmakes
    | ok path =>
      rw [hparse] at hmakes
      obtain ⟨hextends, next, hwalks⟩ := walks_of_makeAlong hmakes
      have hstart : larger.node? (larger.start path) = some .directory := by
        apply node?_start
        rw [hextends.here]
        exact hextends.node? hhere
      have hsame : larger.start path = tree.start path := by
        rw [start, start, hextends.here]
      rw [← hsame] at hwalks
      have hnames := (walks_plainNames_iff hstart).1 hwalks
      exact ⟨hextends, next, hnames.node? hstart, path, (base_of_ne hne).trans hparse, hnames⟩

/-- Directories with plain names beneath another are made as far as they are missing. -/
theorem Leads.makeDirectories_below {below : String} {path : Path}
    (hleads : tree.Leads text place) (hhere : tree.node? tree.here = some .directory)
    (hbase : Path.base text = .ok path)
    (hparse : Path.parse below = .ok ⟨path.isAbsolute, path.names ++ names, false⟩)
    (hnames : ∀ name ∈ names, IsName name) (hne : names ≠ [])
    (hfree : ∀ before after, names = before ++ after → before ≠ [] →
      tree.nodes[place ++ before]? = none ∨ tree.nodes[place ++ before]? = some .directory) :
    tree.makeDirectories below = (.ok (), layDirectories names place tree) := by
  obtain ⟨-, path', hbase', hwalks⟩ := hleads
  cases hbase'.symm.trans hbase
  have hbelow : below ≠ "" := (Path.eq_of_parse_ok hparse).2.1
  have hlast : (path.names ++ names).getLast? ≠ some "." := by
    rw [List.getLast?_append, List.getLast?_eq_some_getLast hne, Option.some_or, Ne,
      Option.some.injEq]
    exact (hnames _ (List.getLast_mem hne)).ne_dot
  have hplain := (walks_plainNames_iff (node?_start hhere)).2 hwalks
  rw [FileTree.makeDirectories, if_neg hbelow]
  have hadded : ∀ name ∈ names, name ≠ "." := fun name hmem => (hnames name hmem).ne_dot
  simp only [hparse, Path.plainNames_append hadded, decide_eq_true hlast]
  exact (makeAlong_of_walks true false hplain names).trans (makeAlong_of_names hnames hfree)

end Leads

/-! ### Files -/

def temporaryPlace (place : Place) (n : Nat) : Place :=
  place ++ [".tmp" ++ toString n]

theorem temporaryPlace_inj {m n : Nat} :
    temporaryPlace place m = temporaryPlace place n ↔ m = n := by
  constructor
  · intro heq
    have hname := congrArg String.toList (List.singleton_inj.1 (List.append_cancel_left heq))
    rw [String.toList_append, String.toList_append] at hname
    exact Nat.repr_injective (String.toList_injective (List.append_cancel_left hname))
  · rintro rfl
    rfl

/-- Among more names than there are nodes, one is the name of none. -/
theorem exists_free_temporaryPlace (tree : FileTree) (place : Place) :
    ∃ n < tree.nodes.size + 1, ¬tree.nodes.contains (temporaryPlace place n) := by
  by_contra hfree
  have hnone (n : Nat) (hn : n < tree.nodes.size + 1) :
      tree.nodes.contains (temporaryPlace place n) = true := by
    by_contra hcontains
    exact hfree ⟨n, hn, hcontains⟩
  have hsub : (List.range (tree.nodes.size + 1)).map (temporaryPlace place) ⊆ tree.nodes.keys := by
    intro p hp
    obtain ⟨n, hn, rfl⟩ := List.mem_map.1 hp
    exact Std.ExtTreeMap.mem_keys.2 (hnone n (List.mem_range.1 hn))
  have hnodup : ((List.range (tree.nodes.size + 1)).map (temporaryPlace place)).Nodup :=
    List.nodup_range.map fun _ _ heq => temporaryPlace_inj.1 heq
  have hle := (hnodup.subperm hsub).length_le
  rw [List.length_map, List.length_range, Std.ExtTreeMap.length_keys] at hle
  exact Nat.not_succ_le_self _ hle

/-- A temporary file gets a place where nothing stands. -/
theorem Leads.makeTemporary {text : String} (hleads : tree.Leads text place) :
    ∃ n, tree.nodes[temporaryPlace place n]? = none ∧ tree.makeTemporary text =
      .ok (temporaryPlace place n, tree.put (temporaryPlace place n) (.file [])) := by
  obtain ⟨hplace, path, hbase, hwalks⟩ := hleads
  -- The empty text stands for the directory that the dot stays in.
  obtain ⟨path', hparse, hlocate⟩ : ∃ path',
      Path.parse (if text = "" then "." else text) = .ok path' ∧
        tree.locate path' = .ok place := by
    by_cases hempty : text = ""
    · rw [Path.base, if_pos hempty] at hbase
      cases hbase
      rw [if_pos hempty]
      refine ⟨⟨false, ["."], false⟩, by decide, ?_⟩
      rw [← walks_nil.1 hwalks]
      rfl
    · rw [if_neg hempty]
      exact ⟨path, (base_of_ne hempty).symm.trans hbase, hwalks.locate⟩
  have hnode : tree.nodeAt (if text = "" then "." else text) = .ok .directory := by
    simp only [nodeAt, hparse, find, hlocate, hplace]
  obtain ⟨n, hn, hfree⟩ : ∃ n, tree.nodes[temporaryPlace place n]? = none ∧
      ((List.range (tree.nodes.size + 1)).find? fun n =>
        !tree.nodes.contains (place ++ [".tmp" ++ toString n])) = some n := by
    cases hfind : (List.range (tree.nodes.size + 1)).find? fun n =>
        !tree.nodes.contains (place ++ [".tmp" ++ toString n]) with
    | none =>
      obtain ⟨n, hn, hcontains⟩ := exists_free_temporaryPlace tree place
      have htaken := List.find?_eq_none.1 hfind n (List.mem_range.2 hn)
      rw [Bool.not_eq_true'] at htaken
      exact absurd (Bool.eq_false_iff.2 hcontains) htaken
    | some n =>
      have hfree := List.find?_some hfind
      rw [Bool.not_eq_true'] at hfree
      exact ⟨n, Std.ExtTreeMap.getElem?_eq_none_of_contains_eq_false hfree, rfl⟩
  refine ⟨n, hn, ?_⟩
  simp only [FileTree.makeTemporary, hnode, hparse, hlocate, hfree, Option.getD_some]
  rfl

/-- A file is moved to the end of a path of plain names if nothing stands there. -/
theorem Leads.moveFile_below {text below last : String} {path : Path} {temporary : Place}
    {content : Bytes} (hleads : tree.Leads text place) (hbase : Path.base text = .ok path)
    (hparse : Path.parse below = .ok ⟨path.isAbsolute, path.names ++ (names ++ [last]), false⟩)
    (hnames : ∀ name ∈ names, IsName name) (hlast : IsName last)
    (hwalks : tree.Walks place names (place ++ names))
    (hfree : tree.nodes[place ++ (names ++ [last])]? = none) (htemporary : temporary ≠ [])
    (hfile : tree.nodes[temporary]? = some (.file content)) :
    tree.moveFile temporary below =
      .ok ((tree.remove temporary).put (place ++ (names ++ [last])) (.file content)) := by
  have hlocate := (hleads.locate_below hbase hnames hlast).2 ⟨hwalks, rfl⟩
  have hnode : tree.node? (place ++ (names ++ [last])) = none := by
    rw [← List.append_assoc, node?_append, List.append_assoc, hfree]
  have htarget : tree.placeForFile below = .ok (place ++ (names ++ [last])) := by
    simp only [placeForFile, hparse, hlocate, hnode, Bool.false_eq_true, if_false]
  have hmoved : tree.node? temporary = some (.file content) := (if_neg htemporary).trans hfile
  simp only [moveFile, htarget, hmoved]

end ContentVault.FileTree
