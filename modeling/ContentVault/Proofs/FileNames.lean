import ContentVault.BlobStore
import ContentVault.Proofs.HexText
import ContentVault.Proofs.PathNames

/-!
# The names of stored files

A direct store keeps a value under the hexadecimal digits of its digest.  They are plain
names, and no two digests share them.
-/

namespace ContentVault

namespace Digest

@[simp]
theorem length_bigBytes (size n : Nat) : (bigBytes size n).length = size := by
  rw [bigBytes, List.length_map, List.length_range]

theorem length_sha1_hash (message : Bytes) : (Algorithm.sha1.hash message).length = 20 := by
  change (Sha1.State.toBytes _).length = 20
  rw [Sha1.State.toBytes]
  simp

end Digest

namespace BlobStore

open ContentVault.Path (IsName IsPiece)

theorem toNat_lt_of_isKeyChar {c : Char} (hc : isKeyChar c = true) : c.toNat < 128 := by
  delta isKeyChar Char.isAlphanum Char.isAlpha Char.isUpper Char.isLower Char.isDigit at hc
  simp only [Bool.or_eq_true, Bool.and_eq_true, decide_eq_true_eq, beq_iff_eq] at hc
  rcases hc with (((⟨-, hle⟩ | ⟨-, hle⟩) | ⟨-, hle⟩) | rfl) | rfl
  · exact Nat.lt_of_le_of_lt hle (by decide)
  · exact Nat.lt_of_le_of_lt hle (by decide)
  · exact Nat.lt_of_le_of_lt hle (by decide)
  · decide
  · decide

theorem isKeyChar_of_mem_digits {byte : UInt8} {c : Char} (hc : c ∈ Hex.digits byte) :
    isKeyChar c = true :=
  Hex.forall_mem_digits (P := fun c => isKeyChar c = true) (by decide) hc

theorem utf8ByteSize_of_isKeyChar {name : String}
    (hchars : ∀ c ∈ name.toList, isKeyChar c = true) : name.utf8ByteSize = name.length :=
  Bytes.utf8ByteSize_of_ascii fun c hc => toNat_lt_of_isKeyChar (hchars c hc)

theorem isPiece_of_isKeyChar {name : String} (hne : name ≠ "")
    (hchars : ∀ c ∈ name.toList, isKeyChar c = true) : IsPiece name where
  ne_empty := hne
  slash_notMem := fun hmem => absurd (hchars _ hmem) (by decide)
  nul_notMem := fun hmem => absurd (hchars _ hmem) (by decide)

theorem dot_notMem_of_isKeyChar {name : String}
    (hchars : ∀ c ∈ name.toList, isKeyChar c = true) : '.' ∉ name.toList :=
  fun hmem => absurd (hchars _ hmem) (by decide)

/-- Characters of keys make a plain name, if there are not too many. -/
theorem isName_of_isKeyChar {name : String} (hne : name ≠ "")
    (hchars : ∀ c ∈ name.toList, isKeyChar c = true) (hlength : name.length ≤ 255) :
    IsName name where
  toIsPiece := isPiece_of_isKeyChar hne hchars
  ne_dot := by
    rintro rfl
    exact dot_notMem_of_isKeyChar hchars List.mem_cons_self
  ne_dots := by
    rintro rfl
    exact dot_notMem_of_isKeyChar hchars List.mem_cons_self
  size_le := by
    rw [utf8ByteSize_of_isKeyChar hchars]
    exact hlength

/-- Two names of two characters each, from the beginning of a text. -/
theorem spec_of_mem_pairs {text name : String} (hlength : 4 ≤ text.toList.length)
    (hname : name ∈ [String.ofList (text.toList.take 2),
      String.ofList ((text.toList.drop 2).take 2)]) :
    name.length = 2 ∧ ∀ c ∈ name.toList, c ∈ text.toList := by
  rcases List.mem_cons.1 hname with rfl | hname
  · rw [String.length_ofList, String.toList_ofList, List.length_take]
    exact ⟨by omega, fun c hc => List.mem_of_mem_take hc⟩
  · rw [List.mem_singleton.1 hname, String.length_ofList, String.toList_ofList, List.length_take,
      List.length_drop]
    exact ⟨by omega, fun c hc => List.mem_of_mem_drop (List.mem_of_mem_take hc)⟩

/-- The names that lead to the file of a key end in the key, and those before are plain. -/
theorem names?_eq_some {key : ContentKey} {names : List String} (hnames : names? key = some names) :
    key.text ≠ "" ∧ (∀ c ∈ key.text.toList, isKeyChar c = true) ∧
      ∃ before, names = before ++ [key.text] ∧ ∀ name ∈ before, IsName name := by
  simp only [names?] at hnames
  split at hnames
  · cases hnames
  · rename_i hkey
    rw [not_or, not_not, List.all_eq_true] at hkey
    obtain ⟨hne, hchars⟩ := hkey
    refine ⟨fun hempty => hne (String.toList_eq_nil_iff.2 hempty), hchars, ?_⟩
    split at hnames
    · cases hnames
      exact ⟨[], rfl, fun _ hname => absurd hname List.not_mem_nil⟩
    · rename_i hlength
      cases hnames
      refine ⟨[String.ofList (key.text.toList.take 2),
        String.ofList ((key.text.toList.drop 2).take 2)], rfl, fun name hname => ?_⟩
      obtain ⟨hcount, hmem⟩ := spec_of_mem_pairs (Nat.le_of_not_lt hlength) hname
      apply isName_of_isKeyChar _ (fun c hc => hchars c (hmem c hc)) (by omega)
      rintro rfl
      cases hcount

/-! ### The file of a value -/

/-- The text of the key of a value has two digits for each of the twenty bytes of its
digest. -/
theorem length_keyOf (value : Bytes) : (keyOf value).text.length = 40 := by
  rw [keyOf, ← String.length_toList, Hex.toList_encode, Hex.length_flatMap_digits,
    Digest.length_sha1_hash]

theorem isKeyChar_of_mem_keyOf {value : Bytes} {c : Char} (hc : c ∈ (keyOf value).text.toList) :
    isKeyChar c = true := by
  rw [keyOf, Hex.toList_encode] at hc
  obtain ⟨byte, -, hdigit⟩ := List.mem_flatMap.1 hc
  exact isKeyChar_of_mem_digits hdigit

/-- Values under the same key have the same digest. -/
theorem hash_eq_of_keyOf_eq {left right : Bytes} (heq : keyOf left = keyOf right) :
    Digest.Algorithm.sha1.hash left = Digest.Algorithm.sha1.hash right :=
  Hex.encode_injective (congrArg ContentKey.text heq)

/-- The names of the two directories that lead to the file of a value. -/
def shelves (value : Bytes) : List String :=
  [String.ofList ((keyOf value).text.toList.take 2),
    String.ofList (((keyOf value).text.toList.drop 2).take 2)]

theorem shelves_ne_nil (value : Bytes) : shelves value ≠ [] := List.cons_ne_nil _ _

@[simp]
theorem length_shelves (value : Bytes) : (shelves value).length = 2 := rfl

theorem names?_keyOf (value : Bytes) :
    names? (keyOf value) = some (shelves value ++ [(keyOf value).text]) := by
  have hlength := length_keyOf value
  rw [← String.length_toList] at hlength
  have hne : (keyOf value).text.toList ≠ [] := by
    intro hnil
    rw [hnil] at hlength
    cases hlength
  have hall : (keyOf value).text.toList.all isKeyChar = true :=
    List.all_eq_true.2 fun c hc => isKeyChar_of_mem_keyOf hc
  simp only [names?, hne, hall, not_true_eq_false, or_self, if_false, hlength]
  rfl

theorem utf8ByteSize_keyOf (value : Bytes) : (keyOf value).text.utf8ByteSize = 40 := by
  rw [utf8ByteSize_of_isKeyChar fun c hc => isKeyChar_of_mem_keyOf hc, length_keyOf]

theorem isName_keyOf (value : Bytes) : IsName (keyOf value).text := by
  have hlength := length_keyOf value
  apply isName_of_isKeyChar
  · intro hempty
    rw [hempty] at hlength
    cases hlength
  · exact fun c hc => isKeyChar_of_mem_keyOf hc
  · omega

theorem spec_of_mem_shelves {value : Bytes} {name : String} (hname : name ∈ shelves value) :
    name.length = 2 ∧ ∀ c ∈ name.toList, isKeyChar c = true := by
  have hlength := length_keyOf value
  rw [← String.length_toList] at hlength
  obtain ⟨hcount, hmem⟩ := spec_of_mem_pairs (by omega) hname
  exact ⟨hcount, fun c hc => isKeyChar_of_mem_keyOf (hmem c hc)⟩

theorem isName_of_mem_shelves {value : Bytes} {name : String} (hname : name ∈ shelves value) :
    IsName name := by
  obtain ⟨hlength, hchars⟩ := spec_of_mem_shelves hname
  apply isName_of_isKeyChar _ hchars (by omega)
  rintro rfl
  cases hlength

/-- The path of a file is longer than that of the root by forty-seven bytes. -/
theorem sizeOf_names (value : Bytes) :
    Path.sizeOf (shelves value) = 6 ∧
      Path.sizeOf (shelves value ++ [(keyOf value).text]) = 47 := by
  have hsize {name : String} (hname : name ∈ shelves value) : name.utf8ByteSize = 2 := by
    obtain ⟨hlength, hchars⟩ := spec_of_mem_shelves hname
    rw [utf8ByteSize_of_isKeyChar hchars, hlength]
  have hfirst := hsize List.mem_cons_self
  have hsecond := hsize (List.mem_cons_of_mem _ List.mem_cons_self)
  simp only [shelves] at hfirst hsecond ⊢
  simp [Path.sizeOf, hfirst, hsecond, utf8ByteSize_keyOf]

end BlobStore

end ContentVault
