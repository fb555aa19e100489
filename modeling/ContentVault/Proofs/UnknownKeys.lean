import ContentVault.Proofs.DirectRuns
import ContentVault.Proofs.FixityCheck

/-!
# Keys that a direct store has not returned

A key that no call has returned leads to a place where no file is.  It is refused as
unknown, but for two cases: a key of two characters can spell the directory that a stored
value is sorted into, and a key can be too long for the file system.
-/

namespace ContentVault

namespace Path

theorem nul_notMem_join {directory name : String} (hdirectory : '\x00' ∉ directory.toList)
    (hname : '\x00' ∉ name.toList) : '\x00' ∉ (join directory name).toList := by
  have hslash : '\x00' ∉ "/".toList := by decide
  rw [join]
  split
  · exact hname
  · split
    · rw [String.toList_append, List.mem_append, not_or]
      exact ⟨hdirectory, hname⟩
    · rw [String.toList_append, String.toList_append, List.mem_append, List.mem_append, not_or,
        not_or]
      exact ⟨⟨hdirectory, hslash⟩, hname⟩

/-- A path beneath a directory that is too long is refused as such. -/
theorem parse_foldl_join_of_size_le {root : String} {names : List String} {path : Path}
    (hbase : base root = .ok path) (hnames : ∀ name ∈ names, IsPiece name)
    (hsize : 4096 ≤ (names.foldl join root).utf8ByteSize) :
    parse (names.foldl join root) = .error .nameTooLong := by
  have hroot : '\x00' ∉ root.toList := by
    rw [base] at hbase
    split at hbase
    · rename_i hempty
      rw [hempty]
      exact List.not_mem_nil
    · exact (eq_of_parse_ok hbase).1
  have hnul : '\x00' ∉ (names.foldl join root).toList := by
    clear hsize hbase
    induction names generalizing root with
    | nil => exact hroot
    | cons name names ih =>
      exact ih (fun name' hmem => hnames name' (List.mem_cons_of_mem name hmem))
        (nul_notMem_join hroot (hnames name List.mem_cons_self).nul_notMem)
  have hne : (names.foldl join root).toList ≠ [] := by
    intro hnil
    rw [String.toList_eq_nil_iff.1 hnil] at hsize
    exact absurd hsize (by decide)
  simp only [parse]
  rw [if_neg hnul, if_neg hne, if_pos hsize]

end Path

namespace FileTree

variable {tree : FileTree} {place : Place} {names : List String}

/-- What stands at the end of a path of names beneath a directory. -/
theorem Leads.nodeAt_eq {text below last : String} {path : Path} (hleads : tree.Leads text place)
    (hbase : Path.base text = .ok path)
    (hparse : Path.parse below = .ok ⟨path.isAbsolute, path.names ++ (names ++ [last]), false⟩) :
    tree.nodeAt below =
      match names.foldlM tree.enter place with
      | .error failure => .error failure
      | .ok directory =>
        match step directory last with
        | .error failure => .error failure
        | .ok p => (tree.node? p).elim (.error .noSuchFile) .ok := by
  obtain ⟨-, path', hbase', hwalks⟩ := hleads
  cases hbase'.symm.trans hbase
  have hstart : tree.start ⟨path.isAbsolute, path.names ++ (names ++ [last]), false⟩ =
      tree.start path := rfl
  have hwalked : (path.names ++ names).foldlM tree.enter (tree.start path) =
      names.foldlM tree.enter place := by
    have hplace : path.names.foldlM tree.enter (tree.start path) = .ok place := hwalks
    rw [List.foldlM_append, hplace]
    rfl
  rw [← List.append_assoc] at hparse hstart
  simp only [nodeAt, hparse, find, locate, List.getLast?_concat, List.dropLast_concat, hstart,
    hwalked]
  cases names.foldlM tree.enter place with
  | error failure => rfl
  | ok directory =>
    dsimp only
    cases step directory last with
    | error failure => rfl
    | ok p =>
      dsimp only
      cases tree.node? p with
      | none => rfl
      | some node => cases node <;> rfl

/-- Plain names that meet nothing but directories, and not only these, lead nowhere. -/
theorem foldlM_enter_of_missing (hnames : ∀ name ∈ names, Path.IsName name)
    (hfree : ∀ before after, names = before ++ after → before ≠ [] →
      tree.nodes[place ++ before]? = none ∨ tree.nodes[place ++ before]? = some .directory)
    (hmissing : ¬tree.Walks place names (place ++ names)) :
    names.foldlM tree.enter place = .error .noSuchFile := by
  induction names generalizing place with
  | nil => exact absurd (walks_nil.2 (List.append_nil place).symm) hmissing
  | cons name names ih =>
    have hstep := step_of_isName (hnames name List.mem_cons_self) place
    rcases hfree [name] names rfl (List.cons_ne_nil _ _) with hnone | hdirectory
    · have henter : tree.enter place name = .error .noSuchFile := by
        simp only [enter, hstep, node?_append, hnone]
      rw [List.foldlM_cons, henter]
      rfl
    · rw [← node?_append] at hdirectory
      rw [List.foldlM_cons, enter_eq_ok_iff.2 ⟨hstep, hdirectory⟩]
      have hplace (below : List String) : place ++ [name] ++ below = place ++ name :: below := by
        rw [List.append_assoc, List.singleton_append]
      refine ih (fun name' hmem => hnames name' (List.mem_cons_of_mem name hmem)) ?_ ?_
      · intro before after hsplit _
        rw [hplace]
        exact hfree (name :: before) after (by rw [hsplit, List.cons_append]) (List.cons_ne_nil _ _)
      · intro hwalks
        rw [hplace] at hwalks
        exact hmissing (walks_cons.2 ⟨_, hstep, hdirectory, hwalks⟩)

end FileTree

namespace BlobStore

open Digest (Algorithm Digester)

variable {store : BlobStore} {tree start : FileTree} {root : Place} {value : Bytes}
  {done : List Bytes} {keys : List ContentKey} {key : ContentKey}

/-! ### The place of a key -/

/-- The names of the directories that lead to the file of a key. -/
def shelvesOf (key : ContentKey) : List String :=
  if key.text.toList.length < 4 then []
  else [String.ofList (key.text.toList.take 2), String.ofList ((key.text.toList.drop 2).take 2)]

theorem length_shelvesOf_le (key : ContentKey) : (shelvesOf key).length ≤ 2 := by
  rw [shelvesOf]
  split
  · exact Nat.zero_le 2
  · exact Nat.le_refl 2

/-- The key is a plain name, so that there is a path for it. -/
structure IsPlain (key : ContentKey) : Prop where
  ne_empty : key.text ≠ ""
  chars : ∀ c ∈ key.text.toList, isKeyChar c = true

theorem names?_of_not_isPlain (hkey : ¬IsPlain key) : names? key = none := by
  cases hnames : names? key with
  | none => rfl
  | some names =>
    obtain ⟨hne, hchars, -⟩ := names?_eq_some hnames
    exact absurd ⟨hne, hchars⟩ hkey

namespace IsPlain

theorem names?_eq (hkey : IsPlain key) : names? key = some (shelvesOf key ++ [key.text]) := by
  have hne : key.text.toList ≠ [] := fun hnil => hkey.ne_empty (String.toList_eq_nil_iff.1 hnil)
  have hall : key.text.toList.all isKeyChar = true := List.all_eq_true.2 hkey.chars
  simp only [names?, shelvesOf, hne, hall, not_true_eq_false, or_self, if_false]
  split <;> rfl

theorem isName_of_mem_shelvesOf (hkey : IsPlain key) {name : String}
    (hname : name ∈ shelvesOf key) : Path.IsName name := by
  obtain ⟨-, -, before, hsplit, hbefore⟩ := names?_eq_some hkey.names?_eq
  rw [(List.append_inj_left' hsplit rfl)] at hname
  exact hbefore name hname

theorem isPiece_of_mem (hkey : IsPlain key) {name : String}
    (hname : name ∈ shelvesOf key ++ [key.text]) : Path.IsPiece name := by
  rcases List.mem_append.1 hname with hname | hname
  · exact (hkey.isName_of_mem_shelvesOf hname).toIsPiece
  · rw [List.mem_singleton.1 hname]
    exact isPiece_of_isKeyChar hkey.ne_empty hkey.chars

end IsPlain

def keyPath (store : BlobStore) (key : ContentKey) : String :=
  store.pathOf (shelvesOf key ++ [key.text])

theorem IsPlain.path?_eq (hkey : IsPlain key) (store : BlobStore) :
    store.path? key = some (store.keyPath key) := by
  rw [path?, hkey.names?_eq]
  rfl

/-- A path of a key is not much longer than the key. -/
theorem utf8ByteSize_keyPath_le (store : BlobStore) (key : ContentKey)
    (hkey : key.text.toList.length < 4) :
    (store.keyPath key).utf8ByteSize ≤ store.root.utf8ByteSize + key.text.utf8ByteSize + 1 := by
  have hle := (Path.utf8ByteSize_foldl_join_le store.root (shelvesOf key ++ [key.text])).2
  have hnone : shelvesOf key = [] := if_pos hkey
  rw [keyPath, pathOf]
  simp only [hnone, List.nil_append, Path.sizeOf] at hle ⊢
  omega

theorem openRead_of_not_isPlain (hkey : ¬IsPlain key) (tree : FileTree) :
    store.openRead key tree = .error (.notFound key.text) := by
  simp only [openRead, path?, names?_of_not_isPlain hkey, Option.map_none]

theorem openRead_of_isPlain (hkey : IsPlain key) (tree : FileTree) :
    store.openRead key tree =
      match tree.nodeAt (store.keyPath key) with
      | .ok node => .ok (node.content?.elim .directory .file)
      | .error .noSuchFile => .error (.notFound key.text)
      | .error failure => .error (.io (.file failure)) := by
  simp only [openRead, hkey.path?_eq, Source.ofFile, FileTree.openFile]
  cases tree.nodeAt (store.keyPath key) with
  | error failure => cases failure <;> rfl
  | ok node => cases node <;> rfl

section Stands

variable (hstands : store.Stands tree root) (hkey : IsPlain key)

include hstands hkey

theorem Stands.nodeAt_of_size_le (hsize : 4096 ≤ (store.keyPath key).utf8ByteSize) :
    tree.nodeAt (store.keyPath key) = .error .nameTooLong := by
  obtain ⟨-, path, hbase, -⟩ := hstands.leads
  have hparse := Path.parse_foldl_join_of_size_le hbase (fun _ hname => hkey.isPiece_of_mem hname)
    hsize
  have hpath : store.keyPath key = (shelvesOf key ++ [key.text]).foldl Path.join store.root := rfl
  rw [FileTree.nodeAt, hpath, hparse]

/-- What stands at the end of the path of a key. -/
theorem Stands.nodeAt_keyPath (hsize : (store.keyPath key).utf8ByteSize < 4096) :
    tree.nodeAt (store.keyPath key) =
      match (shelvesOf key).foldlM tree.enter root with
      | .error failure => .error failure
      | .ok directory =>
        match FileTree.step directory key.text with
        | .error failure => .error failure
        | .ok p => (tree.node? p).elim (.error .noSuchFile) .ok := by
  obtain ⟨-, path, hbase, -⟩ := hstands.leads
  have hparse := Path.parse_foldl_join hbase (fun _ hname => hkey.isPiece_of_mem hname)
    (List.append_ne_nil_of_right_ne_nil _ (List.cons_ne_nil _ _)) hsize
  exact hstands.leads.nodeAt_eq hbase hparse

end Stands

/-! ### What is there -/

namespace Lays

variable {below : Place}

/-- Beneath the root the only directories are those that lead to a value. -/
theorem getElem?_eq_directory_iff (hlays : Lays root done tree) (hbelow : below ≠ []) :
    tree.nodes[root ++ below]? = some .directory ↔
      ∃ value ∈ done, IsShelf root value (root ++ below) := by
  constructor
  · intro hdirectory
    by_contra hshelf
    have hnone : tree.nodes[root ++ below]? = none := by
      refine hlays.nothing below hbelow fun value hvalue => ⟨fun hfile => ?_, fun hshelf' => ?_⟩
      · rw [hfile, hlays.file value hvalue] at hdirectory
        cases hdirectory
      · exact hshelf ⟨value, hvalue, hshelf'⟩
    rw [hnone] at hdirectory
    cases hdirectory
  · rintro ⟨value, hvalue, hshelf⟩
    exact hlays.shelf value hvalue _ hshelf

/-- The files of values are three names beneath the root. -/
theorem getElem?_eq_none (hlays : Lays root done tree) (hbelow : below ≠ [])
    (hshelf : ¬∃ value ∈ done, IsShelf root value (root ++ below))
    (hfile : ∀ value ∈ done, below ≠ shelves value ++ [(keyOf value).text]) :
    tree.nodes[root ++ below]? = none :=
  hlays.nothing below hbelow fun value hvalue =>
    ⟨fun heq => hfile value hvalue (List.append_cancel_left heq),
      fun hshelf' => hshelf ⟨value, hvalue, hshelf'⟩⟩

theorem free_of_length_le (hlays : Lays root done tree) (hbelow : below ≠ [])
    (hlength : below.length ≤ 2) :
    tree.nodes[root ++ below]? = none ∨ tree.nodes[root ++ below]? = some .directory := by
  by_cases hshelf : ∃ value ∈ done, IsShelf root value (root ++ below)
  · exact .inr ((hlays.getElem?_eq_directory_iff hbelow).2 hshelf)
  · refine .inl (hlays.getElem?_eq_none hbelow hshelf fun value _ heq => ?_)
    rw [heq, List.length_append, length_shelves, List.length_singleton] at hlength
    omega

/-- The directories that a key asks for are there if they are those of a value. -/
theorem walks_shelvesOf_iff (hlays : Lays root done tree)
    (hroot : tree.node? root = some .directory) (hlength : 4 ≤ key.text.toList.length) :
    tree.Walks root (shelvesOf key) (root ++ shelvesOf key) ↔
      ∃ value ∈ done, shelves value = shelvesOf key := by
  constructor
  · intro hwalks
    have htwo : (shelvesOf key).length = 2 := by
      rw [shelvesOf, if_neg (Nat.not_lt.2 hlength)]
      rfl
    have hne : shelvesOf key ≠ [] := List.ne_nil_of_length_pos (by omega)
    have hnode := hwalks.node? hroot
    rw [FileTree.node?, if_neg (List.append_ne_nil_of_right_ne_nil _ hne),
      hlays.getElem?_eq_directory_iff hne] at hnode
    obtain ⟨value, hvalue, before, after, hsplit, -, heq⟩ := hnode
    rw [← List.append_cancel_left heq] at hsplit
    have hcount := congrArg List.length hsplit
    rw [length_shelves, List.length_append, htwo] at hcount
    rw [List.eq_nil_of_length_eq_zero (by omega : after.length = 0), List.append_nil] at hsplit
    exact ⟨value, hvalue, hsplit⟩
  · rintro ⟨value, hvalue, heq⟩
    rw [← heq]
    exact hlays.walks hvalue

end Lays

/-! ### Keys that were not returned -/

/-- The key spells the first of the directories that lead to the file of one of the keys. -/
def NamesShelf (keys : List ContentKey) (key : ContentKey) : Prop :=
  ∃ returned ∈ keys, returned.text.toList.take 2 = key.text.toList

/-- The path of the key has more bytes than the file system takes, or its last name has and
the directories that lead there are those of one of the keys. -/
def TooLong (store : BlobStore) (keys : List ContentKey) (key : ContentKey) : Prop :=
  IsPlain key ∧ (4096 ≤ (store.keyPath key).utf8ByteSize ∨
    255 < key.text.utf8ByteSize ∧
      ∃ returned ∈ keys, returned.text.toList.take 4 = key.text.toList.take 4)

instance (keys : List ContentKey) (key : ContentKey) : Decidable (NamesShelf keys key) :=
  inferInstanceAs (Decidable (∃ returned ∈ keys, returned.text.toList.take 2 = key.text.toList))

instance (key : ContentKey) : Decidable (IsPlain key) :=
  decidable_of_iff (key.text ≠ "" ∧ key.text.toList.all isKeyChar = true)
    ⟨fun hkey => ⟨hkey.1, List.all_eq_true.1 hkey.2⟩,
      fun hkey => ⟨hkey.ne_empty, List.all_eq_true.2 hkey.chars⟩⟩

instance (store : BlobStore) (keys : List ContentKey) (key : ContentKey) :
    Decidable (TooLong store keys key) :=
  inferInstanceAs (Decidable (IsPlain key ∧ (4096 ≤ (store.keyPath key).utf8ByteSize ∨
    255 < key.text.utf8ByteSize ∧
      ∃ returned ∈ keys, returned.text.toList.take 4 = key.text.toList.take 4)))

/-- What opening the file of a key comes to that no call has returned. -/
def unreturned (store : BlobStore) (keys : List ContentKey) (key : ContentKey) :
    Except StorageError Source :=
  if NamesShelf keys key then .ok .directory
  else if TooLong store keys key then .error (.io (.file .nameTooLong))
  else .error (.notFound key.text)

theorem isShelf_singleton_iff :
    IsShelf root value (root ++ [key.text]) ↔
      (keyOf value).text.toList.take 2 = key.text.toList := by
  constructor
  · rintro ⟨before, after, hsplit, -, heq⟩
    rw [← List.append_cancel_left heq, shelves, List.singleton_append, List.cons.injEq] at hsplit
    rw [← hsplit.1, String.toList_ofList]
  · intro htake
    refine ⟨[key.text], (shelves value).tail, ?_, List.cons_ne_nil _ _, rfl⟩
    rw [shelves, htake, String.ofList_toList]
    rfl

theorem shelves_eq_iff (hlength : 4 ≤ key.text.toList.length) :
    shelves value = shelvesOf key ↔
      (keyOf value).text.toList.take 4 = key.text.toList.take 4 := by
  have hcount := length_keyOf value
  rw [← String.length_toList] at hcount
  have hfour (chars : List Char) : chars.take 4 = chars.take 2 ++ (chars.drop 2).take 2 :=
    List.take_add (i := 2) (j := 2)
  rw [shelves, shelvesOf, if_neg (Nat.not_lt.2 hlength), List.cons.injEq, List.cons.injEq,
    String.ofList_inj, String.ofList_inj, hfour, hfour]
  constructor
  · rintro ⟨hfirst, hsecond, -⟩
    rw [hfirst, hsecond]
  · intro heq
    have hlengths : ((keyOf value).text.toList.take 2).length =
        (key.text.toList.take 2).length := by
      rw [List.length_take, List.length_take]
      omega
    obtain ⟨hfirst, hsecond⟩ := List.append_inj heq hlengths
    exact ⟨hfirst, hsecond, rfl⟩

/-- Where no value has the key, its place is free. -/
theorem Lays.getElem?_keyPlace (hlays : Lays root done tree)
    (hkeys : ∀ key, key ∈ keys ↔ ∃ value ∈ done, keyOf value = key)
    (hlength : 4 ≤ key.text.toList.length) (hnew : key ∉ keys) :
    tree.nodes[root ++ (shelvesOf key ++ [key.text])]? = none := by
  have hthree : (shelvesOf key ++ [key.text]).length = 3 := by
    rw [shelvesOf, if_neg (Nat.not_lt.2 hlength)]
    rfl
  refine hlays.getElem?_eq_none (List.ne_nil_of_length_pos (by omega)) ?_ ?_
  · rintro ⟨value, -, before, after, hsplit, -, heq⟩
    have hcount := congrArg List.length hsplit
    rw [← List.append_cancel_left heq, length_shelves, List.length_append, hthree] at hcount
    omega
  · intro value hvalue heq
    refine hnew ((hkeys key).2 ⟨value, hvalue, ?_⟩)
    have hlast := (List.append_inj' heq rfl).2
    rw [List.singleton_inj] at hlast
    exact congrArg ContentKey.mk hlast.symm

section Opening

variable (hstands : store.Stands tree root) (hlays : Lays root done tree)
  (hkeys : ∀ key, key ∈ keys ↔ ∃ value ∈ done, keyOf value = key)

include hkeys in
theorem exists_mem_keys_iff {P : ContentKey → Prop} :
    (∃ returned ∈ keys, P returned) ↔ ∃ value ∈ done, P (keyOf value) := by
  simp only [hkeys, exists_exists_and_eq_and]

include hkeys in
/-- Such a key has two characters of keys, and so it is never too long. -/
theorem spec_of_namesShelf (hshelf : NamesShelf keys key) :
    IsPlain key ∧ key.text.toList.length = 2 := by
  obtain ⟨value, -, htake⟩ := (exists_mem_keys_iff hkeys).1 hshelf
  have hcount := length_keyOf value
  rw [← String.length_toList] at hcount
  have htwo : key.text.toList.length = 2 := by
    rw [← htake, List.length_take]
    omega
  refine ⟨⟨?_, fun c hc => ?_⟩, htwo⟩
  · intro hempty
    rw [hempty] at htwo
    cases htwo
  · rw [← htake] at hc
    exact isKeyChar_of_mem_keyOf (List.mem_of_mem_take hc)

include hstands hkeys in
theorem not_namesShelf_of_tooLong (hlong : TooLong store keys key) : ¬NamesShelf keys key := by
  intro hshelf
  obtain ⟨hkey, htwo⟩ := spec_of_namesShelf hkeys hshelf
  have hpath := store.utf8ByteSize_keyPath_le key (by omega)
  have hbytes := utf8ByteSize_of_isKeyChar hkey.chars
  rw [← String.length_toList] at hbytes
  have hshort := hstands.short
  rcases hlong.2 with hsize | ⟨hsize, -⟩ <;> omega

include hstands hlays hkeys

/-- A key of less than four characters is looked for directly beneath the root. -/
theorem nodeAt_of_length_lt (hkey : IsPlain key) (hlength : key.text.toList.length < 4)
    (hsize : (store.keyPath key).utf8ByteSize < 4096) :
    tree.nodeAt (store.keyPath key) =
      if NamesShelf keys key then .ok .directory else .error .noSuchFile := by
  have hname : Path.IsName key.text := isName_of_isKeyChar hkey.ne_empty hkey.chars (by
    rw [← String.length_toList]
    omega)
  have hnone : shelvesOf key = [] := if_pos hlength
  have hshelf : tree.nodes[root ++ [key.text]]? = some .directory ↔ NamesShelf keys key := by
    rw [hlays.getElem?_eq_directory_iff (List.cons_ne_nil key.text [])]
    simp only [isShelf_singleton_iff]
    exact (exists_mem_keys_iff hkeys (P := fun returned => returned.text.toList.take 2 = _)).symm
  have hnode := hstands.nodeAt_keyPath hkey hsize
  simp only [hnone, List.foldlM_nil, pure, Except.pure, FileTree.step_of_isName hname,
    FileTree.node?_append] at hnode
  rw [hnode]
  rcases hlays.free_of_length_le (List.cons_ne_nil key.text []) (Nat.le_succ 1) with
    hfree | hdirectory
  · rw [hfree, if_neg]
    · rfl
    · intro hnames
      rw [hshelf.2 hnames] at hfree
      cases hfree
  · rw [hdirectory, if_pos (hshelf.1 hdirectory)]
    rfl

/-- A longer key is looked for in two directories that its own characters name. -/
theorem nodeAt_of_le_length (hkey : IsPlain key) (hlength : 4 ≤ key.text.toList.length)
    (hsize : (store.keyPath key).utf8ByteSize < 4096) (hnew : key ∉ keys) :
    tree.nodeAt (store.keyPath key) =
      if 255 < key.text.utf8ByteSize ∧
          ∃ returned ∈ keys, returned.text.toList.take 4 = key.text.toList.take 4 then
        .error .nameTooLong
      else .error .noSuchFile := by
  have hwalks := hlays.walks_shelvesOf_iff hstands.leads.1 hlength
  simp only [shelves_eq_iff hlength] at hwalks
  rw [← exists_mem_keys_iff hkeys (P := fun returned => returned.text.toList.take 4 = _)] at hwalks
  rw [hstands.nodeAt_keyPath hkey hsize]
  by_cases hthere : ∃ returned ∈ keys, returned.text.toList.take 4 = key.text.toList.take 4
  · have hwalked : (shelvesOf key).foldlM tree.enter root = .ok (root ++ shelvesOf key) :=
      hwalks.2 hthere
    simp only [hwalked]
    by_cases hlong : 255 < key.text.utf8ByteSize
    · have hne {name : String} (hname : name.toList.length < 4) : key.text ≠ name := by
        rintro rfl
        omega
      rw [FileTree.step, if_neg (hne (by decide)), if_neg (hne (by decide)), if_pos hlong,
        if_pos ⟨hlong, hthere⟩]
    · have hname : Path.IsName key.text := by
        apply isName_of_isKeyChar hkey.ne_empty hkey.chars
        rw [← utf8ByteSize_of_isKeyChar hkey.chars]
        omega
      rw [FileTree.step_of_isName hname, if_neg fun hboth => hlong hboth.1]
      simp only [FileTree.node?_append]
      rw [List.append_assoc, hlays.getElem?_keyPlace hkeys hlength hnew]
      rfl
  · have hmissing : (shelvesOf key).foldlM tree.enter root = .error .noSuchFile := by
      refine FileTree.foldlM_enter_of_missing (fun _ hname => hkey.isName_of_mem_shelvesOf hname) ?_
        fun hwalked => hthere (hwalks.1 hwalked)
      intro before after hsplit hbefore
      refine hlays.free_of_length_le hbefore ?_
      have hcount := length_shelvesOf_le key
      rw [hsplit, List.length_append] at hcount
      omega
    rw [hmissing, if_neg fun hboth => hthere hboth.2]

/-- A key that was not returned is unknown, unless it spells a directory or is too long. -/
theorem openRead_of_notMem (hnew : key ∉ keys) :
    store.openRead key tree = unreturned store keys key := by
  rw [unreturned]
  by_cases hkey : IsPlain key
  · rw [openRead_of_isPlain hkey]
    have hbytes := utf8ByteSize_of_isKeyChar hkey.chars
    rw [← String.length_toList] at hbytes
    by_cases hsize : (store.keyPath key).utf8ByteSize < 4096
    · by_cases hlength : key.text.toList.length < 4
      · have hshort : ¬255 < key.text.utf8ByteSize := by omega
        rw [nodeAt_of_length_lt hstands hlays hkeys hkey hlength hsize]
        have hfits : ¬TooLong store keys key := by
          rintro ⟨-, hlong | ⟨hlong, -⟩⟩
          · exact Nat.not_le.2 hsize hlong
          · exact hshort hlong
        rw [if_neg hfits]
        by_cases hshelf : NamesShelf keys key
        · rw [if_pos hshelf, if_pos hshelf]
          rfl
        · rw [if_neg hshelf, if_neg hshelf]
      · have hshelf : ¬NamesShelf keys key := fun hshelf => by
          have htwo := (spec_of_namesShelf hkeys hshelf).2
          omega
        rw [nodeAt_of_le_length hstands hlays hkeys hkey (Nat.le_of_not_lt hlength) hsize hnew]
        rw [if_neg hshelf]
        by_cases hlong : TooLong store keys key
        · rw [if_pos hlong, if_pos (hlong.2.resolve_left (Nat.not_le.2 hsize))]
        · rw [if_neg hlong, if_neg fun hboth => hlong ⟨hkey, .inr hboth⟩]
    · have hlong : TooLong store keys key := ⟨hkey, .inl (Nat.le_of_not_lt hsize)⟩
      rw [hstands.nodeAt_of_size_le hkey (Nat.le_of_not_lt hsize),
        if_neg (not_namesShelf_of_tooLong hstands hkeys hlong), if_pos hlong]
  · rw [openRead_of_not_isPlain hkey, if_neg, if_neg]
    · exact fun hlong => hkey hlong.1
    · exact fun hshelf => hkey (spec_of_namesShelf hkeys hshelf).1

end Opening

/-! ### Runs -/

/-- Calls that store values one after the other, and the tree that they lead to.  These are
the keys that the calls have returned. -/
inductive Returned (store : BlobStore) (start : FileTree) : List ContentKey → FileTree → Prop where
  | start : Returned store start [] start
  | stored {keys : List ContentKey} {tree tree' : FileTree} {key : ContentKey}
      {source source' : Source} {stores stores' : Stores}
      (hreturned : Returned store start keys tree)
      (hput : store.put source tree stores = (.ok key, source', tree', stores')) :
      Returned store start (keys ++ [key]) tree'
  | failed {keys : List ContentKey} {tree tree' : FileTree} {error : StorageError}
      {source source' : Source} {stores stores' : Stores}
      (hreturned : Returned store start keys tree)
      (hput : store.put source tree stores = (.error error, source', tree', stores')) :
      Returned store start keys tree'

/-- The store holds one value for each of the keys that were returned. -/
theorem Holds.of_returned (hholds : Holds store root start [] start)
    (hreturned : Returned store start keys tree) :
    ∃ done, Holds store root start done tree ∧
      ∀ key, key ∈ keys ↔ ∃ value ∈ done, keyOf value = key := by
  induction hreturned with
  | start => exact ⟨[], hholds, fun key => by simp⟩
  | @stored keys tree tree' key source _ stores _ _ hput ih =>
    obtain ⟨done, hholds', hkeys⟩ := ih
    obtain ⟨value, failure, hyields⟩ := source.exists_yields copySize stores
    cases failure with
    | some error =>
      obtain ⟨_, _, hfailed⟩ := put_of_failed hholds'.stands hyields
      cases hput.symm.trans hfailed
    | none =>
      -- A value under a key that is there already is not kept again.
      obtain ⟨_, _, ⟨⟨other, hother, heq⟩, hcase⟩ | ⟨hnew, hcase⟩⟩ :=
        put_cases hholds'.stands hholds'.lays hyields
      · cases hput.symm.trans hcase
        refine ⟨done, hholds', fun key => ?_⟩
        rw [List.mem_append, List.mem_singleton, hkeys, or_iff_left_iff_imp]
        rintro rfl
        exact ⟨other, hother, heq⟩
      · cases hput.symm.trans hcase
        have hextends := extends_keep hholds'.lays hnew
        have houtside := agreesOutside_keep root value tree
        refine ⟨done ++ [value], ⟨hholds'.stands.extends hextends,
          hholds'.lays.keep fun other hother heq => absurd heq (hnew other hother),
          houtside.here.trans hholds'.outside.here,
          fun p hp => (houtside.nodes p hp).trans (hholds'.outside.nodes p hp)⟩, fun key => ?_⟩
        simp only [List.mem_append, List.mem_singleton, hkeys, or_and_right, exists_or,
          exists_eq_left, @eq_comm _ key]
  | @failed keys tree tree' error source _ stores _ _ hput ih =>
    obtain ⟨done, hholds', hkeys⟩ := ih
    obtain ⟨value, failure, hyields⟩ := source.exists_yields copySize stores
    cases failure with
    | some error =>
      obtain ⟨_, _, hfailed⟩ := put_of_failed hholds'.stands hyields
      cases hput.symm.trans hfailed
      exact ⟨done, hholds', hkeys⟩
    | none =>
      obtain ⟨_, _, ⟨-, hcase⟩ | ⟨-, hcase⟩⟩ := put_cases hholds'.stands hholds'.lays hyields <;>
        cases hput.symm.trans hcase

/-- An entry answers both its readers and those who check it with an error. -/
structure FailsWith (entry : Entry) (v : Vault) (error : VaultError) : Prop where
  openRead : entry.openRead v = (.error error, v)
  checkFixity : ∀ (expected : DigestUri) (expectedSize : UInt64) (algorithm : Algorithm)
    (prefed : List Bytes),
    (entry.checkFixity expected expectedSize ((Digester.start algorithm).fed prefed) v).1 =
      .error error

/-- An entry opens as a directory, which cannot be read: a check fails on its first read. -/
structure OpensDirectory (entry : Entry) (v : Vault) : Prop where
  openRead : entry.openRead v = (.ok .directory, v)
  checkFixity : ∀ (expected : DigestUri) (expectedSize : UInt64) (algorithm : Algorithm)
    (prefed : List Bytes),
    (entry.checkFixity expected expectedSize ((Digester.start algorithm).fed prefed) v).1 =
      .error (.fixityCheckFailed (.file .isADirectory))

theorem failsWith_of_openRead {error : StorageError} {v : Vault} (id : StoreId)
    (hopen : store.openRead key v.tree = .error error) :
    FailsWith ⟨.direct id store, key⟩ v (.backendUnavailable error) := by
  have hentry : (Entry.mk (.direct id store) key).openRead v =
      (.error (.backendUnavailable error), v) := by
    simp only [Entry.openRead, hopen]
  exact ⟨hentry, fun expected expectedSize algorithm prefed =>
    Entry.checkFixity_of_openRead_error expected expectedSize hentry algorithm prefed⟩

theorem opensDirectory_of_openRead {v : Vault} (id : StoreId)
    (hopen : store.openRead key v.tree = .ok .directory) :
    OpensDirectory ⟨.direct id store, key⟩ v := by
  have hentry : (Entry.mk (.direct id store) key).openRead v = (.ok .directory, v) := by
    simp only [Entry.openRead, hopen]
  refine ⟨hentry, fun expected expectedSize algorithm prefed => ?_⟩
  have hcheck := Entry.checkFixity_of_openRead expected expectedSize Nat.one_pos hentry algorithm
    prefed
  rw [((Source.Promises.directory v.stores).drain Nat.one_pos).2] at hcheck
  exact hcheck

/-- The first two characters of a returned key are a key of their own, which no call can have
returned. -/
theorem exists_namesShelf (hkeys : ∀ key, key ∈ keys ↔ ∃ value ∈ done, keyOf value = key)
    {returned : ContentKey} (hmem : returned ∈ keys) :
    ⟨String.ofList (returned.text.toList.take 2)⟩ ∉ keys ∧
      NamesShelf keys ⟨String.ofList (returned.text.toList.take 2)⟩ := by
  have hshelf : NamesShelf keys ⟨String.ofList (returned.text.toList.take 2)⟩ :=
    ⟨returned, hmem, String.toList_ofList.symm⟩
  refine ⟨fun hshort => ?_, hshelf⟩
  obtain ⟨value, -, heq⟩ := (hkeys _).1 hshort
  have htwo := (spec_of_namesShelf hkeys hshelf).2
  rw [← heq, String.length_toList, length_keyOf] at htwo
  omega

/-- What a direct store answers, after any calls, to a key that none of them has returned: the
key is unknown unless it spells a directory or is too long.  As soon as a key was returned there
is another that spells a directory. -/
theorem unknown_of_returned {text : String} {before : FileTree}
    (hcreate : create text before = (.ok store, start))
    (hhere : before.node? before.here = some .directory)
    (hshort : text.utf8ByteSize + 47 < 4096)
    (hempty : ∀ root, start.Leads text root → ∀ below, below ≠ [] →
      start.nodes[root ++ below]? = none)
    (hreturned : Returned store start keys tree) :
    (∀ key ∉ keys, store.openRead key tree = unreturned store keys key ∧
      ∀ (id : StoreId) (v : Vault), v.tree = tree →
        (NamesShelf keys key → OpensDirectory ⟨.direct id store, key⟩ v) ∧
        (TooLong store keys key →
          FailsWith ⟨.direct id store, key⟩ v (.backendUnavailable (.io (.file .nameTooLong)))) ∧
        (¬NamesShelf keys key → ¬TooLong store keys key →
          FailsWith ⟨.direct id store, key⟩ v (.backendUnavailable (.notFound key.text)))) ∧
    ∀ returned ∈ keys, ∃ key ∉ keys, NamesShelf keys key := by
  obtain ⟨root, hstart⟩ := holds_of_create hcreate hhere hshort hempty
  obtain ⟨done, hholds, hkeys⟩ := hstart.of_returned hreturned
  refine ⟨fun key hnew => ?_, fun returned hmem => ⟨_, exists_namesShelf hkeys hmem⟩⟩
  have hopen := openRead_of_notMem hholds.stands hholds.lays hkeys hnew
  refine ⟨hopen, ?_⟩
  rintro id v rfl
  rw [unreturned] at hopen
  refine ⟨fun hshelf => ?_, fun hlong => ?_, fun hshelf hlong => ?_⟩
  · rw [if_pos hshelf] at hopen
    exact opensDirectory_of_openRead id hopen
  · rw [if_neg (not_namesShelf_of_tooLong hholds.stands hkeys hlong), if_pos hlong] at hopen
    exact failsWith_of_openRead id hopen
  · rw [if_neg hshelf, if_neg hlong] at hopen
    exact failsWith_of_openRead id hopen

/-- Three bytes are stored.  The first two characters of their key open as a directory, and the
first four are unknown. -/
theorem unknown_of_returned_emptyRoot :
    ∃ tree, Returned ⟨"v"⟩ emptyRoot [keyOf [1, 2, 3]] tree ∧
      OpensDirectory ⟨.direct 0 ⟨"v"⟩, ⟨"70"⟩⟩ (.ofTree tree) ∧
      FailsWith ⟨.direct 0 ⟨"v"⟩, ⟨"7037"⟩⟩ (.ofTree tree)
        (.backendUnavailable (.notFound "7037")) := by
  obtain ⟨root, hstart⟩ := holds_of_create create_emptyRoot here_empty (by decide) nothing_emptyRoot
  obtain ⟨_, _, ⟨⟨_, hother, -⟩, -⟩ | ⟨-, hput⟩⟩ := put_cases hstart.stands hstart.lays
    (Source.yields_ofBytes (· = ·) (by decide : 0 < copySize) [1, 2, 3] ∅)
  · cases hother
  · have hreturned : Returned ⟨"v"⟩ emptyRoot [keyOf [1, 2, 3]] _ := Returned.start.stored hput
    obtain ⟨hunknown, -⟩ := unknown_of_returned create_emptyRoot here_empty (by decide)
      nothing_emptyRoot hreturned
    refine ⟨_, hreturned, ?_, ?_⟩
    · exact ((hunknown ⟨"70"⟩ (by decide +kernel)).2 0 (.ofTree _) rfl).1 (by decide +kernel)
    · exact ((hunknown ⟨"7037"⟩ (by decide +kernel)).2 0 (.ofTree _) rfl).2.2 (by decide +kernel)
        (by decide +kernel)

end BlobStore

end ContentVault
