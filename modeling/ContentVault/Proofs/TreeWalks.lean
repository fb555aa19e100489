import ContentVault.FileTree
import ContentVault.Proofs.PathNames

/-!
# Walks through a file tree

Names are followed from directory to directory.  What a tree answers to a path below a
directory is decided by where that directory is and what stands at the places below it,
and a walk stays as long as nothing that it passes is taken away.
-/

namespace ContentVault.FileTree

open ContentVault.Path (IsName)

variable {tree larger : FileTree} {place next p : Place} {name : String} {names : List String}
  {node : Node}

/-! ### Nodes -/

theorem eq_of_nodes {left right : FileTree} (hhere : left.here = right.here)
    (hnodes : ∀ p : Place, left.nodes[p]? = right.nodes[p]?) : left = right := by
  obtain ⟨nodes, here⟩ := left
  obtain ⟨nodes', here'⟩ := right
  rw [mk.injEq]
  exact ⟨Std.ExtTreeMap.ext_getElem? fun p => hnodes p, hhere⟩

theorem getElem?_put (tree : FileTree) (place : Place) (node : Node) (p : Place) :
    (tree.put place node).nodes[p]? = if place = p then some node else tree.nodes[p]? := by
  simp [put, Std.ExtTreeMap.getElem?_insert]

theorem getElem?_remove (tree : FileTree) (place p : Place) :
    (tree.remove place).nodes[p]? = if place = p then none else tree.nodes[p]? := by
  simp [remove, Std.ExtTreeMap.getElem?_erase]

@[simp]
theorem here_put (tree : FileTree) (place : Place) (node : Node) :
    (tree.put place node).here = tree.here := rfl

@[simp]
theorem here_remove (tree : FileTree) (place : Place) : (tree.remove place).here = tree.here := rfl

@[simp]
theorem node?_append (tree : FileTree) (place : Place) (name : String) :
    tree.node? (place ++ [name]) = tree.nodes[place ++ [name]]? :=
  if_neg (List.append_ne_nil_of_right_ne_nil _ (List.cons_ne_nil _ _))

/-- Everything in a tree is still in a larger one. -/
structure Extends (tree larger : FileTree) : Prop where
  here : larger.here = tree.here
  nodes : ∀ (p : Place) (node : Node), tree.nodes[p]? = some node → larger.nodes[p]? = some node

theorem Extends.refl (tree : FileTree) : Extends tree tree := ⟨rfl, fun _ _ hnode => hnode⟩

theorem Extends.trans {largest : FileTree} (hfirst : Extends tree larger)
    (hsecond : Extends larger largest) : Extends tree largest :=
  ⟨hsecond.here.trans hfirst.here,
    fun p node hnode => hsecond.nodes p node (hfirst.nodes p node hnode)⟩

/-- Nothing is lost by putting a node where there was none, or where it was already. -/
theorem extends_put (hfree : tree.nodes[place]? = none ∨ tree.nodes[place]? = some node) :
    Extends tree (tree.put place node) := by
  refine ⟨rfl, fun p node' hnode => ?_⟩
  rw [getElem?_put]
  split
  · rename_i heq
    rw [heq, hnode] at hfree
    rcases hfree with hnone | hsame
    · cases hnone
    · exact hsame.symm
  · exact hnode

theorem Extends.node? (hextends : Extends tree larger) (hnode : tree.node? p = some node) :
    larger.node? p = some node := by
  rw [FileTree.node?] at hnode ⊢
  split
  · rename_i hnil
    rw [if_pos hnil] at hnode
    exact hnode
  · rename_i hne
    rw [if_neg hne] at hnode
    exact hextends.nodes p node hnode

/-- Every directory of a tree is one in another, and relative paths start where they did. -/
structure KeepsDirectories (tree larger : FileTree) : Prop where
  here : larger.here = tree.here
  directories : ∀ p, tree.node? p = some .directory → larger.node? p = some .directory

theorem Extends.keepsDirectories (hextends : Extends tree larger) : KeepsDirectories tree larger where
  here := hextends.here
  directories := fun _ hnode => hextends.node? hnode

/-- No directory is lost by putting a node where there was none. -/
theorem keepsDirectories_put (hplace : tree.node? place ≠ some .directory) :
    KeepsDirectories tree (tree.put place node) where
  here := rfl
  directories := by
    intro p hp
    rw [FileTree.node?] at hp ⊢
    split
    · rfl
    · rename_i hne
      rw [if_neg hne] at hp
      rw [getElem?_put, if_neg, hp]
      rintro rfl
      exact hplace (by rw [FileTree.node?, if_neg hne, hp])

/-! ### Walks -/

theorem step_of_isName (hname : IsName name) (place : Place) :
    step place name = .ok (place ++ [name]) := by
  rw [step, if_neg hname.ne_dot, if_neg hname.ne_dots, if_neg (Nat.not_lt.2 hname.size_le)]

theorem enter_eq_ok_iff : tree.enter place name = .ok next ↔
    step place name = .ok next ∧ tree.node? next = some .directory := by
  rw [enter]
  cases step place name with
  | error failure => simp
  | ok reached =>
    simp only [Except.ok.injEq]
    constructor
    · intro henter
      split at henter <;> cases henter
      exact ⟨rfl, by assumption⟩
    · rintro ⟨rfl, hnode⟩
      rw [hnode]

/-- The names lead from one directory to another, through directories. -/
def Walks (tree : FileTree) (place : Place) (names : List String) (next : Place) : Prop :=
  names.foldlM tree.enter place = .ok next

theorem walks_nil : tree.Walks place [] next ↔ place = next := by
  rw [Walks, List.foldlM_nil]
  exact ⟨Except.ok.inj, congrArg Except.ok⟩

theorem walks_cons : tree.Walks place (name :: names) next ↔
    ∃ reached, step place name = .ok reached ∧ tree.node? reached = some .directory ∧
      tree.Walks reached names next := by
  rw [Walks, List.foldlM_cons]
  cases henter : tree.enter place name with
  | error failure =>
    constructor
    · intro hwalks
      cases hwalks
    · rintro ⟨reached, hstep, hnode, -⟩
      rw [enter_eq_ok_iff.2 ⟨hstep, hnode⟩] at henter
      cases henter
  | ok reached =>
    obtain ⟨hstep, hnode⟩ := enter_eq_ok_iff.1 henter
    constructor
    · intro hwalks
      exact ⟨reached, hstep, hnode, hwalks⟩
    · rintro ⟨reached', hstep', -, hwalks⟩
      cases hstep.symm.trans hstep'
      exact hwalks

theorem walks_append {more : List String} : tree.Walks place (names ++ more) next ↔
    ∃ reached, tree.Walks place names reached ∧ tree.Walks reached more next := by
  induction names generalizing place with
  | nil => simp [walks_nil]
  | cons name names ih =>
    simp only [List.cons_append, walks_cons, ih]
    constructor
    · rintro ⟨first, hstep, hnode, reached, hwalks, hrest⟩
      exact ⟨reached, ⟨first, hstep, hnode, hwalks⟩, hrest⟩
    · rintro ⟨reached, ⟨first, hstep, hnode, hwalks⟩, hrest⟩
      exact ⟨first, hstep, hnode, reached, hwalks, hrest⟩

theorem KeepsDirectories.walks (hkeeps : KeepsDirectories tree larger)
    (hwalks : tree.Walks place names next) : larger.Walks place names next := by
  induction names generalizing place with
  | nil => exact hwalks
  | cons name names ih =>
    obtain ⟨reached, hstep, hnode, hrest⟩ := walks_cons.1 hwalks
    exact walks_cons.2 ⟨reached, hstep, hkeeps.directories reached hnode, ih hrest⟩

theorem Extends.walks (hextends : Extends tree larger) (hwalks : tree.Walks place names next) :
    larger.Walks place names next :=
  hextends.keepsDirectories.walks hwalks

/-- A walk ends in a directory if it starts in one. -/
theorem Walks.node? (hwalks : tree.Walks place names next)
    (hplace : tree.node? place = some .directory) : tree.node? next = some .directory := by
  induction names generalizing place with
  | nil => exact walks_nil.1 hwalks ▸ hplace
  | cons name names ih =>
    obtain ⟨reached, -, hnode, hrest⟩ := walks_cons.1 hwalks
    exact ih hrest hnode

/-- Plain names can only lead to the place that they spell. -/
theorem Walks.eq_append (hwalks : tree.Walks place names next)
    (hnames : ∀ name ∈ names, IsName name) : next = place ++ names := by
  induction names generalizing place with
  | nil => rw [← walks_nil.1 hwalks, List.append_nil]
  | cons name names ih =>
    obtain ⟨reached, hstep, -, hrest⟩ := walks_cons.1 hwalks
    rw [step_of_isName (hnames name List.mem_cons_self), Except.ok.injEq] at hstep
    rw [ih hrest fun name' hmem => hnames name' (List.mem_cons_of_mem name hmem), ← hstep,
      List.append_assoc]
    rfl

/-- Plain names can be followed where they name directories, one beneath the other. -/
theorem walks_of_directories (hnames : ∀ name ∈ names, IsName name)
    (hdirectories : ∀ before after, names = before ++ after → before ≠ [] →
      tree.nodes[place ++ before]? = some .directory) :
    tree.Walks place names (place ++ names) := by
  induction names generalizing place with
  | nil => exact walks_nil.2 (List.append_nil place).symm
  | cons name names ih =>
    have hfirst := hdirectories [name] names rfl (List.cons_ne_nil _ _)
    have hplace : place ++ name :: names = place ++ [name] ++ names := by
      rw [List.append_assoc, List.singleton_append]
    refine walks_cons.2 ⟨place ++ [name], step_of_isName (hnames name List.mem_cons_self) place,
      (node?_append tree place name).trans hfirst, ?_⟩
    rw [hplace]
    refine ih (fun name' hmem => hnames name' (List.mem_cons_of_mem name hmem)) ?_
    intro before after hsplit _
    rw [List.append_assoc]
    exact hdirectories (name :: before) after (by rw [hsplit, List.cons_append])
      (List.cons_ne_nil _ _)

/-- Names that stay in place make no difference to a walk. -/
theorem walks_filter_iff (hplace : tree.node? place = some .directory) :
    tree.Walks place (names.filter (· ≠ ".")) next ↔ tree.Walks place names next := by
  induction names generalizing place with
  | nil => rfl
  | cons name names ih =>
    by_cases hdot : name = "."
    · have hstep : step place name = .ok place := if_pos hdot
      rw [List.filter_cons_of_neg (by simp [hdot]), ih hplace, walks_cons]
      constructor
      · intro hwalks
        exact ⟨place, hstep, hplace, hwalks⟩
      · rintro ⟨reached, hstep', -, hwalks⟩
        cases hstep.symm.trans hstep'
        exact hwalks
    · rw [List.filter_cons_of_pos (by simp [hdot]), walks_cons, walks_cons]
      constructor
      · rintro ⟨reached, hstep, hnode, hwalks⟩
        exact ⟨reached, hstep, hnode, (ih hnode).1 hwalks⟩
      · rintro ⟨reached, hstep, hnode, hwalks⟩
        exact ⟨reached, hstep, hnode, (ih hnode).2 hwalks⟩

theorem Walks.unique {other : Place} (hwalks : tree.Walks place names next)
    (hother : tree.Walks place names other) : next = other :=
  Except.ok.inj (hwalks.symm.trans hother)

/-! ### Paths -/

/-- The path of a directory leads to the place. -/
def Leads (tree : FileTree) (text : String) (place : Place) : Prop :=
  tree.node? place = some .directory ∧
    ∃ path, Path.base text = .ok path ∧ tree.Walks (tree.start path) path.names place

theorem Leads.unique {text : String} {other : Place} (hleads : tree.Leads text place)
    (hother : tree.Leads text other) : place = other := by
  obtain ⟨-, path, hbase, hwalks⟩ := hleads
  obtain ⟨-, path', hbase', hwalks'⟩ := hother
  cases hbase.symm.trans hbase'
  exact hwalks.unique hwalks'

theorem Extends.leads {text : String} (hextends : Extends tree larger)
    (hleads : tree.Leads text place) : larger.Leads text place := by
  obtain ⟨hplace, path, hbase, hwalks⟩ := hleads
  refine ⟨hextends.node? hplace, path, hbase, ?_⟩
  rw [start, hextends.here]
  exact hextends.walks hwalks

theorem locate_append_eq_ok_iff {isAbsolute endsInSlash : Bool} {last : String} :
    tree.locate ⟨isAbsolute, names ++ [last], endsInSlash⟩ = .ok p ↔
      ∃ directory, tree.Walks (tree.start ⟨isAbsolute, names ++ [last], endsInSlash⟩) names
        directory ∧ step directory last = .ok p := by
  simp only [locate, List.getLast?_append, List.getLast?_singleton, Option.some_or,
    List.dropLast_concat, Walks]
  cases names.foldlM tree.enter (tree.start ⟨isAbsolute, names ++ [last], endsInSlash⟩) with
  | error failure => simp
  | ok directory => simp

/-- The end of a walk is where the path is located. -/
theorem Walks.locate {path : Path} (hwalks : tree.Walks (tree.start path) path.names place) :
    tree.locate path = .ok place := by
  obtain ⟨isAbsolute, names, endsInSlash⟩ := path
  rcases List.eq_nil_or_concat names with rfl | ⟨init, last, hnames⟩
  · rw [← walks_nil.1 hwalks]
    rfl
  · rw [List.concat_eq_append] at hnames
    subst hnames
    obtain ⟨directory, hinit, hlast⟩ := walks_append.1 hwalks
    obtain ⟨reached, hstep, -, hnil⟩ := walks_cons.1 hlast
    rw [walks_nil] at hnil
    exact locate_append_eq_ok_iff.2 ⟨directory, hinit, hnil ▸ hstep⟩

/-- Where a path is located, it still is while no directory is lost. -/
theorem KeepsDirectories.locate {path : Path} (hkeeps : KeepsDirectories tree larger)
    (hlocate : tree.locate path = .ok place) : larger.locate path = .ok place := by
  obtain ⟨isAbsolute, names, endsInSlash⟩ := path
  have hstart (names : List String) : larger.start ⟨isAbsolute, names, endsInSlash⟩ =
      tree.start ⟨isAbsolute, names, endsInSlash⟩ := by
    rw [start, start, hkeeps.here]
  rcases List.eq_nil_or_concat names with rfl | ⟨init, last, hnames⟩
  · exact (congrArg Except.ok (hstart [])).trans hlocate
  · rw [List.concat_eq_append] at hnames
    subst hnames
    obtain ⟨directory, hwalks, hstep⟩ := locate_append_eq_ok_iff.1 hlocate
    refine locate_append_eq_ok_iff.2 ⟨directory, ?_, hstep⟩
    rw [hstart]
    exact hkeeps.walks hwalks

section Below

variable {text below last : String} {path : Path}

/-- A path of plain names beneath a directory is located beneath it, if the directories on
the way are there. -/
theorem Leads.locate_below (hleads : tree.Leads text place) (hbase : Path.base text = .ok path)
    (hnames : ∀ name ∈ names, IsName name) (hlast : IsName last) :
    tree.locate ⟨path.isAbsolute, path.names ++ (names ++ [last]), false⟩ = .ok p ↔
      tree.Walks place names (place ++ names) ∧ p = place ++ (names ++ [last]) := by
  obtain ⟨-, path', hbase', hwalks⟩ := hleads
  cases hbase'.symm.trans hbase
  rw [← List.append_assoc, locate_append_eq_ok_iff]
  constructor
  · rintro ⟨directory, hdirectory, hstep⟩
    obtain ⟨reached, hreached, hrest⟩ := walks_append.1 hdirectory
    cases hwalks.unique hreached
    rw [step_of_isName hlast, hrest.eq_append hnames, Except.ok.injEq] at hstep
    rw [hrest.eq_append hnames] at hrest
    exact ⟨hrest, by rw [← hstep, List.append_assoc]⟩
  · rintro ⟨hrest, rfl⟩
    refine ⟨place ++ names, walks_append.2 ⟨place, hwalks, hrest⟩, ?_⟩
    rw [step_of_isName hlast, List.append_assoc]

/-- What stands at the end of a path of plain names. -/
theorem Leads.nodeAt_below (hleads : tree.Leads text place) (hbase : Path.base text = .ok path)
    (hparse : Path.parse below = .ok ⟨path.isAbsolute, path.names ++ (names ++ [last]), false⟩)
    (hnames : ∀ name ∈ names, IsName name) (hlast : IsName last) :
    tree.nodeAt below = .ok node ↔
      tree.Walks place names (place ++ names) ∧
        tree.nodes[place ++ (names ++ [last])]? = some node := by
  have hlocate (p : Place) := hleads.locate_below (p := p) hbase hnames hlast
  have hnode : tree.node? (place ++ (names ++ [last])) = tree.nodes[place ++ (names ++ [last])]? := by
    rw [← List.append_assoc, node?_append]
  simp only [nodeAt, hparse, find]
  cases hfound : tree.locate ⟨path.isAbsolute, path.names ++ (names ++ [last]), false⟩ with
  | error failure =>
    constructor
    · intro hnode
      cases hnode
    · rintro ⟨hwalks, -⟩
      rw [(hlocate _).2 ⟨hwalks, rfl⟩] at hfound
      cases hfound
  | ok found =>
    obtain ⟨hwalks, rfl⟩ := (hlocate found).1 hfound
    simp only [hnode]
    cases tree.nodes[place ++ (names ++ [last])]? with
    | none => simp
    | some found => cases found <;> simp [hwalks]

end Below

end ContentVault.FileTree
