import ContentVault.Bytes
import Mathlib.Tactic.NormNum

/-!
# The bytes of texts

The bytes of a text are those of its characters.  An ASCII character is one byte, its code, and
any other consists of bytes beyond ASCII.  UTF-8 keeps the order of texts, which is by the code
points of their characters: the smaller of two texts has the smaller bytes, compared from the left.
-/

namespace ContentVault

/-- What holds of the first 128 characters, which can be tried, holds of every ASCII character. -/
theorem forall_ascii {P : Char → Prop} (hall : ∀ n < 128, P (.ofNat n)) {c : Char}
    (hascii : c.toNat < 128) : P c := by
  have hchar := hall c.toNat hascii
  rwa [Char.ofNat_toNat] at hchar

namespace Bytes

/-! ### Characters -/

theorem ofText_ofList_eq_flatMap (chars : List Char) :
    ofText (String.ofList chars) = chars.flatMap String.utf8EncodeChar := by
  rw [ofText, String.toByteArray_ofList]
  simp [List.utf8Encode]

theorem utf8EncodeChar_of_lt {c : Char} (hascii : c.toNat < 128) :
    String.utf8EncodeChar c = [c.toUInt8] := by
  have hsize : c.utf8Size = 1 := by
    rw [Char.utf8Size_eq_one_iff, UInt32.le_iff_toNat_le]
    exact Nat.le_of_lt_succ hascii
  rw [String.utf8EncodeChar_eq_singleton hsize]
  rfl

/-- The bytes of a text of ASCII characters are their codes. -/
theorem ofText_ofList {chars : List Char} (hascii : ∀ c ∈ chars, c.toNat < 128) :
    ofText (String.ofList chars) = chars.map Char.toUInt8 := by
  rw [ofText_ofList_eq_flatMap]
  induction chars with
  | nil => rfl
  | cons c chars ih =>
    rw [List.flatMap_cons, utf8EncodeChar_of_lt (hascii c List.mem_cons_self),
      ih fun d hd => hascii d (List.mem_cons_of_mem c hd)]
    rfl

theorem utf8ByteSize_of_ascii {text : String} (hascii : ∀ c ∈ text.toList, c.toNat < 128) :
    text.utf8ByteSize = text.length := by
  have hsize := congrArg List.length (ofText_ofList hascii)
  rw [String.ofList_toList, List.length_map, String.length_toList] at hsize
  exact hsize

/-- All bytes of a character beyond ASCII have the highest bit. -/
theorem le_of_mem_utf8EncodeChar {c : Char} (hwide : 128 ≤ c.toNat) :
    ∀ byte ∈ String.utf8EncodeChar c, 128 ≤ byte.toNat := by
  have hmarked {n : Nat} (hle : 128 ≤ n) (hlt : n < 256) : 128 ≤ (UInt8.ofNat n).toNat := by
    rwa [UInt8.toNat_ofNat_of_lt' hlt]
  have hlarge : ¬c.val.toNat ≤ 127 := Nat.not_le.2 hwide
  simp only [String.utf8EncodeChar, if_neg hlarge]
  split_ifs <;>
    simp only [List.forall_mem_cons, List.not_mem_nil, IsEmpty.forall_iff, implies_true, and_true] <;>
    and_intros <;> apply hmarked <;> omega

/-! ### Order -/

/-- The smaller of two numbers has the smaller digits in base 64, from the first that differs. -/
theorem lt_digits {m n : Nat} (hlt : m < n) :
    m / 262144 < n / 262144 ∨ m / 262144 = n / 262144 ∧
      (m / 4096 % 64 < n / 4096 % 64 ∨ m / 4096 % 64 = n / 4096 % 64 ∧
        (m / 64 % 64 < n / 64 % 64 ∨ m / 64 % 64 = n / 64 % 64 ∧ m % 64 < n % 64)) := by
  have hdiv (k : Nat) : k / 4096 = k / 64 / 64 ∧ k / 262144 = k / 64 / 64 / 64 := by omega
  have hstep {m n : Nat} (hlt : m < n) : m / 64 < n / 64 ∨ m / 64 = n / 64 ∧ m % 64 < n % 64 := by
    omega
  simp only [hdiv]
  rcases hstep hlt with hlt | hlast
  · rcases hstep hlt with hlt | hlast
    · rcases hstep hlt with hlt | hlast
      · exact .inl hlt
      · exact .inr ⟨hlast.1, .inl hlast.2⟩
    · exact .inr ⟨by rw [hlast.1], .inr ⟨by rw [hlast.1], .inl hlast.2⟩⟩
  · exact .inr ⟨by rw [hlast.1], .inr ⟨by rw [hlast.1], .inr ⟨by rw [hlast.1], hlast.2⟩⟩⟩

/-- Of two characters the smaller has the smaller bytes, whatever follows. -/
theorem utf8EncodeChar_append_lt {c d : Char} (hlt : c < d) (left right : Bytes) :
    String.utf8EncodeChar c ++ left < String.utf8EncodeChar d ++ right := by
  have hcodes : c.val.toNat < d.val.toNat := hlt
  have hlimit : d.val.toNat < 0x110000 := by
    have := d.valid
    simp only [UInt32.isValidChar, Nat.isValidChar] at this
    omega
  have hdigits := lt_digits hcodes
  simp only [String.utf8EncodeChar]
  generalize c.val.toNat = m at hcodes hdigits ⊢
  generalize d.val.toNat = n at hcodes hdigits hlimit ⊢
  -- one case for each two lengths: a longer encoding has the greater first byte, and among equally
  -- long ones the bytes are the digits in base 64
  split_ifs <;>
    simp only [List.cons_append, List.nil_append, List.cons_lt_cons_iff, UInt8.lt_iff_toNat_lt,
      ← UInt8.toNat_inj, UInt8.toNat_ofNat', Nat.reducePow] <;>
    simp (disch := omega) only [Nat.mod_eq_of_lt] <;>
    omega

theorem flatMap_utf8EncodeChar_lt {left right : List Char} (hlt : left < right) :
    left.flatMap String.utf8EncodeChar < right.flatMap String.utf8EncodeChar := by
  induction left generalizing right with
  | nil =>
    cases right with
    | nil => exact absurd hlt (List.not_lt_nil _)
    | cons d right =>
      obtain ⟨byte, more, hbytes⟩ := List.exists_cons_of_ne_nil (@String.utf8EncodeChar_ne_nil d)
      rw [List.flatMap_cons, hbytes]
      exact List.nil_lt_cons byte _
  | cons c left ih =>
    cases right with
    | nil => exact absurd hlt (List.not_lt_nil _)
    | cons d right =>
      rw [List.flatMap_cons, List.flatMap_cons]
      rcases List.cons_lt_cons_iff.1 hlt with hhead | ⟨rfl, htail⟩
      · exact utf8EncodeChar_append_lt hhead _ _
      · exact List.append_left_lt (ih htail)

theorem ofText_lt_of_compare {left right : String} (hcompare : compare left right = .lt) :
    ofText left < ofText right := by
  have hlt : left < right := compareOfLessAndEq_eq_lt.1 hcompare
  rw [← String.ofList_toList (s := left), ← String.ofList_toList (s := right),
    ofText_ofList_eq_flatMap, ofText_ofList_eq_flatMap]
  exact flatMap_utf8EncodeChar_lt (String.lt_iff.1 hlt)

/-- The order of texts is that of their UTF-8 bytes. -/
theorem ofText_lt_iff_compare {left right : String} :
    ofText left < ofText right ↔ compare left right = .lt := by
  refine ⟨fun hlt => ?_, ofText_lt_of_compare⟩
  cases hcompare : compare left right with
  | lt => rfl
  | eq =>
    rw [Std.compare_eq_iff_eq.1 hcompare] at hlt
    exact absurd hlt (List.lt_irrefl _)
  | gt =>
    have hgreater := ofText_lt_of_compare (Std.OrientedCmp.lt_of_gt hcompare)
    exact absurd hlt (List.lt_asymm hgreater)

end Bytes

end ContentVault
