import ContentVault.Proofs.DirectStore

/-!
# Runs on a direct store

Whatever is stored in a direct store and however often, beneath its root there is the file
of every value that was completed, the two directories that lead to each, and nothing else.
-/

namespace ContentVault.BlobStore

open FileTree (Extends)

variable {store : BlobStore} {tree start : FileTree} {root : Place} {value : Bytes}
  {done : List Bytes}

/-- Beneath the root there are just the files of these values and their directories. -/
structure Lays (root : Place) (done : List Bytes) (tree : FileTree) : Prop where
  file : ∀ value ∈ done, tree.nodes[filePlace root value]? = some (.file value)
  shelf : ∀ value ∈ done, ∀ p, IsShelf root value p → tree.nodes[p]? = some .directory
  nothing : ∀ below, below ≠ [] →
    (∀ value ∈ done, root ++ below ≠ filePlace root value ∧ ¬IsShelf root value (root ++ below)) →
    tree.nodes[root ++ below]? = none

theorem filePlace_eq_iff {left right : Bytes} :
    filePlace root left = filePlace root right ↔ keyOf left = keyOf right := by
  constructor
  · intro heq
    have hlast := congrArg List.getLast? (List.append_cancel_left heq)
    simp only [List.getLast?_append, List.getLast?_singleton, Option.some_or, Option.some.injEq]
      at hlast
    exact congrArg ContentKey.mk hlast
  · intro heq
    rw [filePlace, filePlace, shelves, shelves, heq]

theorem filePlace_eq (root : Place) (value : Bytes) :
    ∃ below, below ≠ [] ∧ filePlace root value = root ++ below :=
  ⟨_, List.append_ne_nil_of_right_ne_nil _ (List.cons_ne_nil _ _), rfl⟩

namespace Lays

theorem congr {done' : List Bytes} (hlays : Lays root done tree)
    (hsame : ∀ value, value ∈ done' ↔ value ∈ done) : Lays root done' tree where
  file := fun value hvalue => hlays.file value ((hsame value).1 hvalue)
  shelf := fun value hvalue => hlays.shelf value ((hsame value).1 hvalue)
  nothing := fun below hbelow hothers =>
    hlays.nothing below hbelow fun value hvalue => hothers value ((hsame value).2 hvalue)

theorem walks (hlays : Lays root done tree) (hvalue : value ∈ done) :
    tree.Walks root (shelves value) (root ++ shelves value) :=
  FileTree.walks_of_directories (fun _ hname => isName_of_mem_shelves hname)
    fun before after hsplit hbefore =>
      hlays.shelf value hvalue _ ⟨before, after, hsplit, hbefore, rfl⟩

/-- Where no value has that key, the place of a file is free. -/
theorem absent (hlays : Lays root done tree) (hnew : ∀ other ∈ done, keyOf other ≠ keyOf value) :
    tree.nodes[filePlace root value]? = none := by
  apply hlays.nothing _ (List.append_ne_nil_of_right_ne_nil _ (List.cons_ne_nil _ _))
  intro other hother
  exact ⟨fun heq => hnew other hother (filePlace_eq_iff.1 heq).symm,
    fun hshelf => filePlace_ne_shelf hshelf rfl⟩

theorem shelvesFree (hlays : Lays root done tree) (value : Bytes) :
    ShelvesFree tree root value := by
  intro p hp
  by_cases hshared : ∃ other ∈ done, IsShelf root other p
  · obtain ⟨other, hother, hshelf⟩ := hshared
    exact .inr (hlays.shelf other hother p hshelf)
  · have hfile (other : Bytes) : p ≠ filePlace root other := filePlace_ne_shelf hp
    obtain ⟨before, after, hsplit, hbefore, rfl⟩ := hp
    refine .inl (hlays.nothing before hbefore fun other hother => ⟨hfile other, fun hshelf => ?_⟩)
    exact hshared ⟨other, hother, hshelf⟩

/-- A value that collides with none of the others joins them. -/
theorem keep (hlays : Lays root done tree)
    (hdistinct : ∀ other ∈ done, keyOf other = keyOf value → other = value) :
    Lays root (done ++ [value]) (BlobStore.keep root value tree) where
  file := by
    intro other hother
    by_cases heq : other = value
    · rw [heq, getElem?_keep_filePlace]
    · have hother := (List.mem_append.1 hother).resolve_right fun hmem =>
        heq (List.mem_singleton.1 hmem)
      have hplace : filePlace root other ≠ filePlace root value := fun hplace =>
        heq (hdistinct other hother (filePlace_eq_iff.1 hplace))
      rw [getElem?_keep_of_ne hplace fun hshelf => filePlace_ne_shelf hshelf rfl,
        hlays.file other hother]
  shelf := by
    intro other hother p hp
    by_cases hshelf : IsShelf root value p
    · rw [getElem?_keep_shelf tree hshelf]
    · rw [getElem?_keep_of_ne (filePlace_ne_shelf hp) hshelf]
      refine hlays.shelf other ((List.mem_append.1 hother).resolve_right fun hmem => ?_) p hp
      exact hshelf (List.mem_singleton.1 hmem ▸ hp)
  nothing := by
    intro below hbelow hothers
    obtain ⟨hfile, hshelf⟩ := hothers value (List.mem_append_right _ List.mem_cons_self)
    rw [getElem?_keep_of_ne hfile hshelf]
    exact hlays.nothing below hbelow fun other hother =>
      hothers other (List.mem_append_left _ hother)

end Lays

/-- No two of the values have the same digest unless they are the same. -/
def NoCollision (done : List Bytes) : Prop :=
  ∀ left ∈ done, ∀ right ∈ done,
    Digest.Algorithm.sha1.hash left = Digest.Algorithm.sha1.hash right → left = right

theorem NoCollision.of_append {more : List Bytes} (hdistinct : NoCollision (done ++ more)) :
    NoCollision done :=
  fun left hleft right hright =>
    hdistinct left (List.mem_append_left _ hleft) right (List.mem_append_left _ hright)

/-- Nothing differs between two trees but what is beneath the root. -/
structure AgreesOutside (root : Place) (tree larger : FileTree) : Prop where
  here : larger.here = tree.here
  nodes : ∀ p, (∀ below, below ≠ [] → p ≠ root ++ below) → larger.nodes[p]? = tree.nodes[p]?

theorem agreesOutside_keep (root : Place) (value : Bytes) (tree : FileTree) :
    AgreesOutside root tree (keep root value tree) where
  here := here_keep root value tree
  nodes := by
    intro p hp
    apply getElem?_keep_of_ne
    · obtain ⟨below, hbelow, heq⟩ := filePlace_eq root value
      rw [heq]
      exact hp below hbelow
    · rintro ⟨before, after, -, hbefore, heq⟩
      exact hp before hbefore heq

theorem extends_keep (hlays : Lays root done tree)
    (hnew : ∀ other ∈ done, keyOf other ≠ keyOf value) : Extends tree (keep root value tree) := by
  refine ⟨here_keep root value tree, fun p node hnode => ?_⟩
  by_cases hfile : p = filePlace root value
  · rw [hfile, hlays.absent hnew] at hnode
    cases hnode
  · by_cases hshelf : IsShelf root value p
    · rw [getElem?_keep_shelf tree hshelf]
      rcases hlays.shelvesFree value p hshelf with hnone | hdirectory
      · rw [hnone] at hnode
        cases hnode
      · rw [← hdirectory, hnode]
    · rw [getElem?_keep_of_ne hfile hshelf, hnode]

section Put

variable {source : Source} {stores : Stores}

/-- A call with a value whose key is there already changes nothing. -/
theorem put_of_taken (hstands : store.Stands tree root) (hlays : Lays root done tree)
    {other : Bytes} (hother : other ∈ done) (heq : keyOf other = keyOf value)
    (hyields : source.Yields (· = ·) copySize stores value none) :
    ∃ source' stores', store.put source tree stores =
      (.ok (keyOf value), source', tree, stores') := by
  have hshelves : shelves other = shelves value := by rw [shelves, shelves, heq]
  have hwalks := hlays.walks hother
  have hnode := hlays.file other hother
  rw [hshelves] at hwalks
  rw [filePlace_eq_iff.2 heq] at hnode
  exact put_of_present hstands hwalks hnode hyields

/-- A call with a value whose key is new adds it. -/
theorem put_of_new (hstands : store.Stands tree root) (hlays : Lays root done tree)
    (hnew : ∀ other ∈ done, keyOf other ≠ keyOf value)
    (hyields : source.Yields (· = ·) copySize stores value none) :
    ∃ source' stores', store.put source tree stores =
      (.ok (keyOf value), source', keep root value tree, stores') :=
  put_of_absent hstands (hlays.absent hnew) (hlays.shelvesFree value) hyields

/-- A call with a value does either of these. -/
theorem put_cases (hstands : store.Stands tree root) (hlays : Lays root done tree)
    (hyields : source.Yields (· = ·) copySize stores value none) :
    ∃ source' stores',
      ((∃ other ∈ done, keyOf other = keyOf value) ∧
        store.put source tree stores = (.ok (keyOf value), source', tree, stores')) ∨
      ((∀ other ∈ done, keyOf other ≠ keyOf value) ∧
        store.put source tree stores =
          (.ok (keyOf value), source', keep root value tree, stores')) := by
  by_cases htaken : ∃ other ∈ done, keyOf other = keyOf value
  · obtain ⟨other, hother, heq⟩ := htaken
    obtain ⟨source', stores', hput⟩ := put_of_taken hstands hlays hother heq hyields
    exact ⟨source', stores', .inl ⟨⟨other, hother, heq⟩, hput⟩⟩
  · have hnew (other : Bytes) (hother : other ∈ done) (heq : keyOf other = keyOf value) : False :=
      htaken ⟨other, hother, heq⟩
    obtain ⟨source', stores', hput⟩ := put_of_new hstands hlays hnew hyields
    exact ⟨source', stores', .inr ⟨hnew, hput⟩⟩

/-- Whatever was in the tree still is. -/
theorem extends_put (hstands : store.Stands tree root) (hlays : Lays root done tree)
    (hyields : source.Yields (· = ·) copySize stores value none) :
    Extends tree (store.put source tree stores).2.2.1 := by
  obtain ⟨source', stores', ⟨-, hput⟩ | ⟨hnew, hput⟩⟩ := put_cases hstands hlays hyields <;>
    rw [hput]
  · exact .refl tree
  · exact extends_keep hlays hnew

end Put

/-! ### Runs -/

/-- Calls that store values one after the other, from any sources, and the trees that they
lead to.  These are the values that were completed, in order. -/
inductive Runs (store : BlobStore) (start : FileTree) : List Bytes → FileTree → Prop where
  | start : Runs store start [] start
  | completed {done : List Bytes} {tree : FileTree} {value : Bytes} (source : Source)
      (stores : Stores) (hruns : Runs store start done tree)
      (hyields : source.Yields (· = ·) copySize stores value none) :
      Runs store start (done ++ [value]) (store.put source tree stores).2.2.1
  | failed {done : List Bytes} {tree : FileTree} {value : Bytes} {error : IoError}
      (source : Source) (stores : Stores) (hruns : Runs store start done tree)
      (hyields : source.Yields (· = ·) copySize stores value (some error)) :
      Runs store start done (store.put source tree stores).2.2.1

/-- What holds all along: the store stands, its root holds the completed values, and nothing
else has changed. -/
structure Holds (store : BlobStore) (root : Place) (start : FileTree) (done : List Bytes)
    (tree : FileTree) : Prop where
  stands : store.Stands tree root
  lays : Lays root done tree
  outside : AgreesOutside root start tree

theorem Holds.completed (hholds : Holds store root start done tree)
    (hdistinct : NoCollision (done ++ [value])) {source : Source} {stores : Stores}
    (hyields : source.Yields (· = ·) copySize stores value none) :
    Holds store root start (done ++ [value]) (store.put source tree stores).2.2.1 := by
  have hsame {other : Bytes} (hother : other ∈ done) (heq : keyOf other = keyOf value) :
      other = value :=
    hdistinct other (List.mem_append_left _ hother) value
      (List.mem_append_right _ List.mem_cons_self) (hash_eq_of_keyOf_eq heq)
  have hextends := extends_put hholds.stands hholds.lays hyields
  obtain ⟨source', stores', ⟨⟨other, hother, heq⟩, hput⟩ | ⟨hnew, hput⟩⟩ :=
    put_cases hholds.stands hholds.lays hyields
  · rw [hput]
    refine ⟨hholds.stands, hholds.lays.congr fun value' => ?_, hholds.outside⟩
    rw [List.mem_append, List.mem_singleton, or_iff_left_iff_imp]
    rintro rfl
    exact hsame hother heq ▸ hother
  · have houtside := agreesOutside_keep root value tree
    rw [hput] at hextends ⊢
    exact ⟨hholds.stands.extends hextends,
      hholds.lays.keep fun other hother heq => hsame hother heq,
      houtside.here.trans hholds.outside.here,
      fun p hp => (houtside.nodes p hp).trans (hholds.outside.nodes p hp)⟩

theorem Holds.of_runs (hholds : Holds store root start [] start)
    (hruns : Runs store start done tree) (hdistinct : NoCollision done) :
    Holds store root start done tree := by
  induction hruns with
  | start => exact hholds
  | completed source stores _ hyields ih =>
    exact (ih hdistinct.of_append).completed hdistinct hyields
  | failed source stores _ hyields ih =>
    obtain ⟨source', stores', hput⟩ := put_of_failed (ih hdistinct).stands hyields
    rw [hput]
    exact ih hdistinct

/-- The values decide the tree. -/
theorem Holds.unique {other : FileTree} {done' : List Bytes}
    (hholds : Holds store root start done tree) (hother : Holds store root start done' other)
    (hsame : ∀ value, value ∈ done' ↔ value ∈ done) : other = tree := by
  have hlays := hother.lays.congr fun value => (hsame value).symm
  refine FileTree.eq_of_nodes (hother.outside.here.trans hholds.outside.here.symm) fun p => ?_
  by_cases hbelow : ∃ below, below ≠ [] ∧ p = root ++ below
  · obtain ⟨below, hbelow, rfl⟩ := hbelow
    by_cases hvalue : ∃ value ∈ done,
        root ++ below = filePlace root value ∨ IsShelf root value (root ++ below)
    · obtain ⟨value, hvalue, hfile | hshelf⟩ := hvalue
      · rw [hfile, hlays.file value hvalue, hholds.lays.file value hvalue]
      · rw [hlays.shelf value hvalue _ hshelf, hholds.lays.shelf value hvalue _ hshelf]
    · have hothers (value : Bytes) (hmem : value ∈ done) :
          root ++ below ≠ filePlace root value ∧ ¬IsShelf root value (root ++ below) :=
        not_or.1 fun heither => hvalue ⟨value, hmem, heither⟩
      rw [hlays.nothing below hbelow hothers, hholds.lays.nothing below hbelow hothers]
  · have houtside (below : Place) (hne : below ≠ []) (heq : p = root ++ below) : False :=
      hbelow ⟨below, hne, heq⟩
    rw [hother.outside.nodes p houtside, hholds.outside.nodes p houtside]

/-- What a direct store answers once these values were completed. -/
structure Answers (store : BlobStore) (done : List Bytes) (tree : FileTree) : Prop where
  /-- The key of a value is the lowercase hexadecimal form of its SHA-1 digest. -/
  completed : ∀ (source : Source) (stores : Stores) (value : Bytes),
    source.Yields (· = ·) copySize stores value none →
    ∃ source' tree' stores', store.put source tree stores =
      (.ok ⟨Hex.encode (Digest.Algorithm.sha1.hash value)⟩, source', tree', stores')
  /-- A source that fails changes nothing in the tree. -/
  failed : ∀ (source : Source) (stores : Stores) (value : Bytes) (error : IoError),
    source.Yields (· = ·) copySize stores value (some error) →
    ∃ source' stores', store.put source tree stores = (.error (.io error), source', tree, stores')
  /-- Neither does a value that was completed before. -/
  again : ∀ (source : Source) (stores : Stores), ∀ value ∈ done,
    source.Yields (· = ·) copySize stores value none →
    ∃ source' stores', store.put source tree stores =
      (.ok ⟨Hex.encode (Digest.Algorithm.sha1.hash value)⟩, source', tree, stores')
  /-- Every value that was completed is read back whole. -/
  reads : ∀ value ∈ done, ∃ opened,
    store.openRead ⟨Hex.encode (Digest.Algorithm.sha1.hash value)⟩ tree = .ok opened ∧
      ∀ (stores : Stores) (sizes : Nat → Nat), (∀ turn, 0 < sizes turn) →
        opened.Delivers sizes stores value

theorem Holds.answers (hholds : Holds store root start done tree) : Answers store done tree where
  completed := by
    intro source stores value hyields
    obtain ⟨source', stores', ⟨-, hput⟩ | ⟨-, hput⟩⟩ := put_cases hholds.stands hholds.lays hyields
    · exact ⟨source', tree, stores', hput⟩
    · exact ⟨source', keep root value tree, stores', hput⟩
  failed := fun source stores value error hyields => put_of_failed hholds.stands hyields
  again := fun source stores value hvalue hyields =>
    put_of_taken hholds.stands hholds.lays hvalue rfl hyields
  reads := by
    intro value hvalue
    refine ⟨.file value, openRead_of_present hholds.stands (hholds.lays.walks hvalue)
      (hholds.lays.file value hvalue), fun stores sizes hsizes => ?_⟩
    exact (Source.Promises.file value stores).delivers hsizes

theorem eq_of_create {text : String} {before : FileTree}
    (hcreate : create text before = (.ok store, start)) :
    store = ⟨text⟩ ∧ before.makeDirectories text = (.ok (), start) := by
  rw [create] at hcreate
  split at hcreate
  · cases hcreate
  · rename_i hmakes
    cases hcreate
    exact ⟨rfl, hmakes⟩

/-- A store that was just opened over an empty root holds no value. -/
theorem holds_of_create {text : String} {before : FileTree}
    (hcreate : create text before = (.ok store, start))
    (hhere : before.node? before.here = some .directory)
    (hshort : text.utf8ByteSize + 47 < 4096)
    (hempty : ∀ root, start.Leads text root → ∀ below, below ≠ [] →
      start.nodes[root ++ below]? = none) :
    ∃ root, Holds store root start [] start := by
  obtain ⟨rfl, hmakes⟩ := eq_of_create hcreate
  obtain ⟨hextends, root, hleads⟩ := FileTree.leads_of_makeDirectories hhere hmakes
  refine ⟨root, ⟨hleads, ?_, hshort⟩, ⟨?_, ?_, ?_⟩, ⟨rfl, fun _ _ => rfl⟩⟩
  · rw [hextends.here]
    exact hextends.node? hhere
  · exact fun _ hvalue => absurd hvalue List.not_mem_nil
  · exact fun _ hvalue => absurd hvalue List.not_mem_nil
  · exact fun below hbelow _ => hempty root hleads below hbelow

/-- A direct store over an empty root answers as it should after every run, and the values
that a run has completed decide the tree that it leaves. -/
theorem answers_of_runs {text : String} {before : FileTree}
    (hcreate : create text before = (.ok store, start))
    (hhere : before.node? before.here = some .directory)
    (hshort : text.utf8ByteSize + 47 < 4096)
    (hempty : ∀ root, start.Leads text root → ∀ below, below ≠ [] →
      start.nodes[root ++ below]? = none)
    (hruns : Runs store start done tree) (hdistinct : NoCollision done) :
    Answers store done tree ∧
      ∀ done' tree', Runs store start done' tree' → (∀ value, value ∈ done' ↔ value ∈ done) →
        tree' = tree := by
  obtain ⟨root, hstart⟩ := holds_of_create hcreate hhere hshort hempty
  have hholds := hstart.of_runs hruns hdistinct
  refine ⟨hholds.answers, fun done' tree' hruns' hsame => ?_⟩
  have hdistinct' : NoCollision done' := fun left hleft right hright =>
    hdistinct left ((hsame left).1 hleft) right ((hsame right).1 hright)
  exact hholds.unique (hstart.of_runs hruns' hdistinct') hsame

/-- The tree of a store whose root has just been made. -/
def emptyRoot : FileTree := FileTree.empty.put ["", "v"] .directory

theorem create_emptyRoot : create "v" .empty = (.ok ⟨"v"⟩, emptyRoot) := by
  have hnone : FileTree.empty.node? ["", "v"] = none := by
    rw [FileTree.node?, if_neg (by decide), FileTree.empty, Std.ExtTreeMap.getElem?_insert]
    simp
  have hmakes : FileTree.empty.makeDirectories "v" = (.ok (), emptyRoot) := by
    have hstep : FileTree.step [""] "v" = .ok ["", "v"] := rfl
    have hparse : Path.parse "v" = .ok ⟨false, ["v"], false⟩ := rfl
    rw [FileTree.makeDirectories, if_neg (by decide), hparse]
    change FileTree.makeAlong true false ["v"] [""] FileTree.empty = _
    simp only [FileTree.makeAlong, hstep, hnone, Bool.true_or, if_true]
    rfl
  rw [create, hmakes]

theorem leads_emptyRoot : emptyRoot.Leads "v" ["", "v"] := by
  have hroot : emptyRoot.node? ["", "v"] = some .directory := by
    rw [FileTree.node?, if_neg (by decide), emptyRoot, FileTree.getElem?_put, if_pos rfl]
  refine ⟨hroot, ⟨false, ["v"], false⟩, rfl, FileTree.walks_cons.2 ?_⟩
  exact ⟨["", "v"], rfl, hroot, FileTree.walks_nil.2 rfl⟩

theorem here_empty : FileTree.empty.node? FileTree.empty.here = some .directory := by
  rw [FileTree.node?, if_neg (by decide), FileTree.empty, Std.ExtTreeMap.getElem?_insert_self]

theorem nothing_emptyRoot (root : Place) (hleads : emptyRoot.Leads "v" root) (below : Place)
    (hbelow : below ≠ []) : emptyRoot.nodes[root ++ below]? = none := by
  obtain ⟨name, rest, rfl⟩ := List.exists_cons_of_ne_nil hbelow
  cases hleads.unique leads_emptyRoot
  rw [emptyRoot, FileTree.getElem?_put, if_neg (by simp), FileTree.empty,
    Std.ExtTreeMap.getElem?_insert, if_neg (by simp)]
  exact Std.ExtTreeMap.getElem?_empty

theorem stands_emptyRoot : Stands ⟨"v"⟩ emptyRoot ["", "v"] := by
  obtain ⟨hextends, -⟩ := FileTree.leads_of_makeDirectories here_empty
    (eq_of_create create_emptyRoot).2
  refine ⟨leads_emptyRoot, ?_, by decide⟩
  rw [hextends.here]
  exact hextends.node? here_empty

/-- Three bytes are stored, a source breaks off after five, nothing is stored, and the three
bytes once more.  They are read back from the tree that storing them last would have left. -/
theorem answers_of_runs_emptyRoot :
    ∃ tree, Runs ⟨"v"⟩ emptyRoot [[1, 2, 3], [], [1, 2, 3]] tree ∧
      Runs ⟨"v"⟩ emptyRoot [[], [1, 2, 3]] tree ∧
      ∃ opened, openRead ⟨"v"⟩ ⟨Hex.encode (Digest.Algorithm.sha1.hash [1, 2, 3])⟩ tree =
          .ok opened ∧
        opened.Delivers (fun _ => 2) ∅ [1, 2, 3] := by
  have hyields (events : List InputEvent) :
      (Source.script ⟨events, none⟩).Yields (· = ·) copySize ∅ (Source.outcomeOf events).1
        (Source.outcomeOf events).2 :=
    Source.yields_script _ (by decide) (by decide) events ∅
  let pieces : ScriptedInput :=
    ⟨[.data [1], .failure (.plain .interrupted), .data [2, 3]], none⟩
  let broken : ScriptedInput :=
    ⟨[.data [1, 2, 3], .data [4, 5], .failure (.plain .connectionReset)], none⟩
  have hruns : Runs ⟨"v"⟩ emptyRoot [[1, 2, 3], [], [1, 2, 3]] _ :=
    (((Runs.start.completed (.script pieces) ∅ (hyields _)).failed (.script broken) ∅
      (hyields _)).completed (.script ⟨[], none⟩) ∅ (hyields _)).completed
        (.script ⟨[.data [1, 2, 3]], none⟩) ∅ (hyields _)
  have hruns' : Runs ⟨"v"⟩ emptyRoot [[], [1, 2, 3]] _ :=
    (Runs.start.completed (.script ⟨[], none⟩) ∅ (hyields _)).completed
      (.script ⟨[.data [1, 2, 3]], none⟩) ∅ (hyields _)
  have hdistinct : NoCollision [[1, 2, 3], [], [1, 2, 3]] := by
    unfold NoCollision
    decide +kernel
  obtain ⟨hanswers, hunique⟩ := answers_of_runs create_emptyRoot here_empty (by decide)
    nothing_emptyRoot hruns hdistinct
  obtain ⟨opened, hopen, hdelivers⟩ := hanswers.reads [1, 2, 3] List.mem_cons_self
  have hmem (value : Bytes) :
      value ∈ ([[], [1, 2, 3]] : List Bytes) ↔ value ∈ ([[1, 2, 3], [], [1, 2, 3]] : List Bytes) := by
    simp only [List.mem_cons, List.not_mem_nil, or_false]
    constructor
    · rintro (hvalue | hvalue)
      · exact .inr (.inl hvalue)
      · exact .inl hvalue
    · rintro (hvalue | hvalue | hvalue)
      · exact .inr hvalue
      · exact .inl hvalue
      · exact .inr hvalue
  have hsame := hunique _ _ hruns' hmem
  exact ⟨_, hruns, hsame ▸ hruns', opened, hopen, hdelivers ∅ _ fun _ => by decide⟩

end ContentVault.BlobStore
