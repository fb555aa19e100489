import ContentVault.Proofs.TextBytes
import ContentVault.Proofs.UnknownKeys

/-!
# The paths of keys

The caller of a direct store chooses the texts of keys.  Only a plain name has a path: it leads
from the root through one name or three, none of which goes up or stays in place, and the last is
the key.  So no key leads out of the root, two keys never share a path, and none has the path of a
temporary file.
-/

namespace ContentVault

namespace Bytes

/-- A part of a text that was cut out at two byte offsets.  Both are in range and none is inside a
character. -/
structure Slice (text : String) (start stop : Nat) (part : String) : Prop where
  isValid_start : String.Pos.Raw.IsValid text ⟨start⟩
  isValid_stop : String.Pos.Raw.IsValid text ⟨stop⟩
  bytes : ofText part = ((ofText text).drop start).take (stop - start)

variable {text : String} (hascii : ∀ c ∈ text.toList, c.toNat < 128)

include hascii

/-- Every offset in an ASCII text is between two characters. -/
theorem isValid_of_ascii {offset : Nat} (hoffset : offset ≤ text.length) :
    String.Pos.Raw.IsValid text ⟨offset⟩ := by
  have hbefore : (String.ofList (text.toList.take offset)).utf8ByteSize = offset := by
    rw [utf8ByteSize_of_ascii, String.length_ofList, List.length_take, String.length_toList]
    · exact Nat.min_eq_left hoffset
    · rw [String.toList_ofList]
      exact fun c hc => hascii c (List.mem_of_mem_take hc)
  refine String.Pos.Raw.isValid_iff_exists_append.2
    ⟨.ofList (text.toList.take offset), .ofList (text.toList.drop offset), ?_, ?_⟩
  · rw [← String.ofList_append, List.take_append_drop, String.ofList_toList]
  · exact String.Pos.Raw.ext hbefore.symm

/-- An ASCII text can be cut at any offsets, and what is cut out is as many characters. -/
theorem slice_of_ascii {start stop : Nat} (hstart : start ≤ text.length)
    (hstop : stop ≤ text.length) :
    Slice text start stop (.ofList ((text.toList.drop start).take (stop - start))) where
  isValid_start := isValid_of_ascii hascii hstart
  isValid_stop := isValid_of_ascii hascii hstop
  bytes := by
    have hbytes := ofText_ofList hascii
    rw [String.ofList_toList] at hbytes
    rw [ofText_ofList fun c hc => hascii c (List.mem_of_mem_drop (List.mem_of_mem_take hc)), hbytes,
      List.map_take, List.map_drop]

end Bytes

namespace Path

variable {root name : String} {names : List String}

def separator (directory : String) : String :=
  if directory = "" ∨ directory.toList.getLast? = some '/' then "" else "/"

theorem join_eq (directory name : String) :
    join directory name = directory ++ separator directory ++ name := by
  rw [join, separator]
  by_cases hempty : directory = ""
  · rw [if_pos hempty, if_pos (.inl hempty), hempty]
    simp
  · by_cases hslash : directory.toList.getLast? = some '/'
    · rw [if_neg hempty, if_pos hslash, if_pos (.inr hslash), String.append_empty]
    · rw [if_neg hempty, if_neg hslash, if_neg (not_or.2 ⟨hempty, hslash⟩)]

/-- A path that consists of a root and some names beneath it. -/
structure Beneath (root path : String) (names : List String) : Prop where
  begins : ∃ rest, path = root ++ rest
  isAbsolute_iff : path.toList.head? = some '/' ↔ root.toList.head? = some '/'
  namesOf_eq : namesOf path.toList = namesOf root.toList ++ names

theorem beneath_join (root : String) (hname : IsPiece name) :
    Beneath root (join root name) [name] where
  begins := ⟨separator root ++ name, by rw [join_eq, String.append_assoc]⟩
  isAbsolute_iff := by
    by_cases hempty : root = ""
    · have hstart : name.toList.head? ≠ some '/' :=
        fun hhead => hname.slash_notMem (List.mem_of_head? hhead)
      rw [join, if_pos hempty, hempty]
      exact iff_of_false hstart (by simp)
    · obtain ⟨before, hjoin, -, hhead, -⟩ := exists_toList_join name hempty
      rw [hjoin, hhead]
  namesOf_eq := by
    by_cases hempty : root = ""
    · rw [join, if_pos hempty, hname.namesOf, hempty]
      rfl
    · obtain ⟨before, hjoin, hnames, -, -⟩ := exists_toList_join name hempty
      rw [hjoin, namesOf_append_slash, hnames, hname.namesOf]

theorem Beneath.refl (root : String) : Beneath root root [] where
  begins := ⟨"", String.append_empty.symm⟩
  isAbsolute_iff := .rfl
  namesOf_eq := (List.append_nil _).symm

theorem Beneath.trans {middle path : String} {before after : List String}
    (hmiddle : Beneath root middle before) (hpath : Beneath middle path after) :
    Beneath root path (before ++ after) where
  begins := by
    obtain ⟨rest, hrest⟩ := hmiddle.begins
    obtain ⟨rest', hrest'⟩ := hpath.begins
    exact ⟨rest ++ rest', by rw [hrest', hrest, String.append_assoc]⟩
  isAbsolute_iff := hpath.isAbsolute_iff.trans hmiddle.isAbsolute_iff
  namesOf_eq := by rw [hpath.namesOf_eq, hmiddle.namesOf_eq, List.append_assoc]

theorem beneath_foldl_join (root : String) (hnames : ∀ name ∈ names, IsPiece name) :
    Beneath root (names.foldl join root) names := by
  induction names generalizing root with
  | nil => exact .refl root
  | cons name names ih =>
    have hfirst := beneath_join root (hnames name List.mem_cons_self)
    exact hfirst.trans (ih _ fun _ hmem => hnames _ (List.mem_cons_of_mem name hmem))

end Path

/-- The path that a text spells is located at the place; something may stand there or not. -/
def FileTree.Locates (tree : FileTree) (text : String) (place : Place) : Prop :=
  ∃ path, Path.parse text = .ok path ∧ tree.locate path = .ok place

/-- Names that neither go up nor stay in place lead nowhere but beneath the directory that they are
followed from. -/
theorem FileTree.Leads.place_eq {tree : FileTree} {root place : Place} {text last : String}
    {names : List String} (hleads : tree.Leads text root)
    (hnames : ∀ name ∈ names, Path.IsName name) (hlast : Path.IsPiece last) (hdot : last ≠ ".")
    (hdots : last ≠ "..")
    (hlocates : tree.Locates ((names ++ [last]).foldl Path.join text) place) :
    place = root ++ (names ++ [last]) := by
  obtain ⟨path, hparse, hlocate⟩ := hlocates
  obtain ⟨base, hbase, -⟩ := hleads.2
  have hpieces : ∀ name ∈ names ++ [last], Path.IsPiece name := by
    intro name hname
    rcases List.mem_append.1 hname with hname | hname
    · exact (hnames name hname).toIsPiece
    · exact List.mem_singleton.1 hname ▸ hlast
  have hspelled := Path.parse_foldl_join hbase hpieces (by simp) (Path.eq_of_parse_ok hparse).2.2
  rw [hparse, Except.ok.injEq] at hspelled
  rw [hspelled] at hlocate
  -- The file system has refused a longer name, so that the last one is like the others.
  have hsize : last.utf8ByteSize ≤ 255 := by
    rw [← List.append_assoc] at hlocate
    obtain ⟨directory, -, hstep⟩ := locate_append_eq_ok_iff.1 hlocate
    rw [step, if_neg hdot, if_neg hdots] at hstep
    by_contra hlong
    rw [if_pos (Nat.not_le.1 hlong)] at hstep
    cases hstep
  exact ((hleads.locate_below hbase hnames ⟨hlast, hdot, hdots, hsize⟩).1 hlocate).2

namespace BlobStore

variable {store : BlobStore} {key other : ContentKey} {path : String} {names : List String}

def IsNameChar (c : Char) : Prop :=
  'A' ≤ c ∧ c ≤ 'Z' ∨ 'a' ≤ c ∧ c ≤ 'z' ∨ '0' ≤ c ∧ c ≤ '9' ∨ c = '-' ∨ c = '_'

theorem isKeyChar_iff {c : Char} : isKeyChar c = true ↔ IsNameChar c := by
  delta isKeyChar Char.isAlphanum Char.isAlpha Char.isUpper Char.isLower Char.isDigit IsNameChar
  simp only [Bool.or_eq_true, Bool.and_eq_true, decide_eq_true_eq, beq_iff_eq, or_assoc]
  rfl

theorem isPlain_iff :
    IsPlain key ↔ key.text ≠ "" ∧ ∀ c ∈ key.text.toList, IsNameChar c := by
  simp only [← isKeyChar_iff]
  exact ⟨fun hkey => ⟨hkey.ne_empty, hkey.chars⟩, fun hkey => ⟨hkey.1, hkey.2⟩⟩

/-- The names that lead to the file of a key: the key alone, if it is short, and otherwise behind
two names of two bytes each, cut from its beginning. -/
inductive Fans (text : String) : List String → Prop where
  | short (hsize : text.utf8ByteSize < 4) : Fans text [text]
  | long {first second : String} (hsize : 4 ≤ text.utf8ByteSize)
      (hfirst : Bytes.Slice text 0 2 first) (hsecond : Bytes.Slice text 2 4 second) :
      Fans text [first, second, text]

theorem IsPlain.fans (hkey : IsPlain key) : Fans key.text (shelvesOf key ++ [key.text]) := by
  have hascii : ∀ c ∈ key.text.toList, c.toNat < 128 :=
    fun c hc => toNat_lt_of_isKeyChar (hkey.chars c hc)
  have hsize := Bytes.utf8ByteSize_of_ascii hascii
  rw [shelvesOf, String.length_toList]
  split
  · exact .short (by omega)
  · exact .long (by omega) (Bytes.slice_of_ascii hascii (by omega) (by omega))
      (Bytes.slice_of_ascii hascii (by omega) (by omega))

/-- The path consists of the root of the store and these names, taken from the key.  None of them
goes up or stays in place, so wherever the root is, the path cannot lead but beneath it. -/
structure Confines (store : BlobStore) (key : ContentKey) (path : String)
    (names : List String) : Prop where
  path_eq : path = names.foldl Path.join store.root
  beneath : Path.Beneath store.root path names
  fans : Fans key.text names
  last : names.getLast? = some key.text
  isPiece : ∀ name ∈ names, Path.IsPiece name ∧ name ≠ "." ∧ name ≠ ".."
  place_eq : ∀ {tree : FileTree} {root place : Place}, tree.Leads store.root root →
    tree.Locates path place → place = root ++ names

theorem isPlain_of_path? (hpath : store.path? key = some path) : IsPlain key := by
  by_contra hkey
  rw [path?, names?_of_not_isPlain hkey] at hpath
  cases hpath

theorem IsPlain.dot_notMem (hkey : IsPlain key) : '.' ∉ key.text.toList :=
  dot_notMem_of_isKeyChar hkey.chars

theorem IsPlain.ne_dot (hkey : IsPlain key) : key.text ≠ "." :=
  fun heq => hkey.dot_notMem (heq ▸ List.mem_singleton_self '.')

theorem IsPlain.ne_dots (hkey : IsPlain key) : key.text ≠ ".." :=
  fun heq => hkey.dot_notMem (heq ▸ List.mem_cons_self)

theorem IsPlain.ne_temporary (hkey : IsPlain key) (suffix : String) :
    key.text ≠ ".tmp" ++ suffix := by
  intro heq
  apply hkey.dot_notMem
  rw [heq, String.toList_append]
  exact List.mem_append_left _ (by decide)

theorem confines_of_path? (hpath : store.path? key = some path) :
    store.Confines key path (shelvesOf key ++ [key.text]) := by
  have hkey := isPlain_of_path? hpath
  rw [hkey.path?_eq, Option.some.injEq] at hpath
  subst hpath
  have hpieces : ∀ name ∈ shelvesOf key ++ [key.text], Path.IsPiece name :=
    fun _ hname => hkey.isPiece_of_mem hname
  exact {
    path_eq := rfl
    beneath := Path.beneath_foldl_join store.root hpieces
    fans := hkey.fans
    last := List.getLast?_concat
    isPiece := by
      intro name hname
      refine ⟨hpieces name hname, ?_⟩
      rcases List.mem_append.1 hname with hname | hname
      · have hname := hkey.isName_of_mem_shelvesOf hname
        exact ⟨hname.ne_dot, hname.ne_dots⟩
      · rw [List.mem_singleton.1 hname]
        exact ⟨hkey.ne_dot, hkey.ne_dots⟩
    place_eq := fun hleads hlocates => hleads.place_eq
      (fun _ hname => hkey.isName_of_mem_shelvesOf hname)
      (isPiece_of_isKeyChar hkey.ne_empty hkey.chars) hkey.ne_dot hkey.ne_dots hlocates }

namespace Confines

/-- The names tell the key. -/
theorem key_eq {path' : String} (hkey : store.Confines key path names)
    (hother : store.Confines other path' names) : other = key := by
  have htext := hother.last.symm.trans hkey.last
  rw [Option.some.injEq] at htext
  obtain ⟨text⟩ := key
  obtain ⟨text'⟩ := other
  exact congrArg ContentKey.mk htext

/-- The path tells the names. -/
theorem names_eq {others : List String} (hkey : store.Confines key path names)
    (hother : store.Confines other path others) : others = names :=
  List.append_cancel_left (hother.beneath.namesOf_eq.symm.trans hkey.beneath.namesOf_eq)

end Confines

theorem IsPlain.isKeyChar_of_mem (hkey : IsPlain key) {name : String}
    (hname : name ∈ shelvesOf key ++ [key.text]) : ∀ c ∈ name.toList, isKeyChar c = true := by
  rcases List.mem_append.1 hname with hname | hname
  · rw [shelvesOf] at hname
    split at hname
    · exact absurd hname List.not_mem_nil
    · have hlength : 4 ≤ key.text.toList.length := by omega
      exact fun c hc => hkey.chars c ((spec_of_mem_pairs hlength hname).2 c hc)
  · rw [List.mem_singleton.1 hname]
    exact hkey.chars

/-- What comes behind the root begins with a character of a key, which a dot is not. -/
theorem IsPlain.keyPath_ne_join (hkey : IsPlain key) (store : BlobStore) (suffix : String) :
    store.keyPath key ≠ Path.join store.root (".tmp" ++ suffix) := by
  intro heq
  obtain ⟨first, names, hcons⟩ := List.exists_cons_of_ne_nil
    (List.append_ne_nil_of_right_ne_nil (shelvesOf key) (List.cons_ne_nil key.text []))
  have hpieces : ∀ name ∈ first :: names, Path.IsPiece name :=
    fun _ hname => hkey.isPiece_of_mem (hcons ▸ hname)
  obtain ⟨c, chars, hchars⟩ :=
    List.exists_cons_of_ne_nil (hpieces first List.mem_cons_self).toList_ne_nil
  have hfirst : first ∈ shelvesOf key ++ [key.text] := hcons ▸ List.mem_cons_self
  have hc := hkey.isKeyChar_of_mem hfirst c (hchars ▸ List.mem_cons_self)
  obtain ⟨rest, hrest⟩ := (Path.beneath_foldl_join (Path.join store.root first)
    fun name hname => hpieces name (List.mem_cons_of_mem first hname)).begins
  rw [keyPath, pathOf, hcons, List.foldl_cons, hrest, Path.join_eq, Path.join_eq] at heq
  have hlists := congrArg String.toList heq
  simp only [String.toList_append, List.append_assoc, hchars] at hlists
  have hhead := (List.cons.inj (List.append_cancel_left (List.append_cancel_left hlists))).1
  rw [hhead] at hc
  exact absurd hc (by decide)

/-- What the caller of a store takes for a key has a path only if it is a plain name.  The path
stays beneath the root, wherever that is, no other key has it or leads to the same place, and it is
never that of a temporary file. -/
theorem confines_keys (store : BlobStore) (key : ContentKey) :
    ((store.path? key).isSome ↔ key.text ≠ "" ∧ ∀ c ∈ key.text.toList, IsNameChar c) ∧
    ∀ path, store.path? key = some path →
      (∃ names, store.Confines key path names) ∧
      (∀ other, store.path? other = some path → other = key) ∧
      (∀ suffix, path ≠ Path.join store.root (".tmp" ++ suffix)) ∧
      ∀ (tree : FileTree) (root place : Place), tree.Leads store.root root →
        tree.Locates path place →
        (∀ suffix, place ≠ root ++ [".tmp" ++ suffix]) ∧
        (∀ temporary made, tree.makeTemporary store.root = .ok (temporary, made) →
          place ≠ temporary) ∧
        ∀ other path', store.path? other = some path' → tree.Locates path' place → other = key := by
  constructor
  · rw [← isPlain_iff]
    constructor
    · intro hsome
      obtain ⟨path, hpath⟩ := Option.isSome_iff_exists.1 hsome
      exact isPlain_of_path? hpath
    · intro hkey
      rw [hkey.path?_eq]
      rfl
  · intro path hpath
    have hkey := isPlain_of_path? hpath
    have hconfines := confines_of_path? hpath
    refine ⟨⟨_, hconfines⟩, ?unique, ?apart, ?located⟩
    case unique =>
      intro other hother
      have hothers := confines_of_path? hother
      exact hconfines.key_eq (hconfines.names_eq hothers ▸ hothers)
    case apart =>
      rw [hkey.path?_eq, Option.some.injEq] at hpath
      exact hpath ▸ hkey.keyPath_ne_join store
    case located =>
      intro tree root place hleads hlocates
      have hplace := hconfines.place_eq hleads hlocates
      have htemporary (suffix : String) : place ≠ root ++ [".tmp" ++ suffix] := by
        intro heq
        have hnames := List.append_cancel_left (hplace.symm.trans heq)
        have hlast := hconfines.last
        rw [hnames, List.getLast?_singleton, Option.some.injEq] at hlast
        exact hkey.ne_temporary suffix hlast.symm
      refine ⟨htemporary, fun temporary made hmade => ?_, fun other path' hother hlocates' => ?_⟩
      · obtain ⟨n, -, hmakes⟩ := hleads.makeTemporary
        rw [hmakes] at hmade
        cases hmade
        exact htemporary (toString n)
      · have hothers := confines_of_path? hother
        have hnames := (hothers.place_eq hleads hlocates').symm.trans hplace
        exact hconfines.key_eq (List.append_cancel_left hnames ▸ hothers)

/-- A long key is fanned out; a short one is put in the root. -/
theorem confines_keys_emptyRoot :
    path? ⟨"v"⟩ ⟨"a-_4Z"⟩ = some "v/a-/_4/a-_4Z" ∧
    (∃ names, Confines ⟨"v"⟩ ⟨"a-_4Z"⟩ "v/a-/_4/a-_4Z" names) ∧
    path? ⟨"v"⟩ ⟨"a-_"⟩ = some "v/a-_" ∧ emptyRoot.Leads "v" ["", "v"] ∧
    emptyRoot.Locates "v/a-_" ["", "v", "a-_"] ∧
    ∀ temporary made, emptyRoot.makeTemporary "v" = .ok (temporary, made) →
      ["", "v", "a-_"] ≠ temporary := by
  have hlong : path? ⟨"v"⟩ ⟨"a-_4Z"⟩ = some "v/a-/_4/a-_4Z" := by decide +kernel
  have hshort : path? ⟨"v"⟩ ⟨"a-_"⟩ = some "v/a-_" := by decide +kernel
  have hlocates : emptyRoot.Locates "v/a-_" ["", "v", "a-_"] :=
    ⟨⟨false, ["v", "a-_"], false⟩, by decide +kernel, by decide +kernel⟩
  obtain ⟨hconfines, -⟩ := (confines_keys ⟨"v"⟩ ⟨"a-_4Z"⟩).2 _ hlong
  obtain ⟨-, -, -, hlocated⟩ := (confines_keys ⟨"v"⟩ ⟨"a-_"⟩).2 _ hshort
  obtain ⟨-, htemporary, -⟩ := hlocated emptyRoot _ _ leads_emptyRoot hlocates
  exact ⟨hlong, hconfines, hshort, leads_emptyRoot, hlocates, htemporary⟩

end BlobStore

end ContentVault
