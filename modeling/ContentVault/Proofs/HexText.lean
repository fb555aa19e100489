import ContentVault.Hex
import ContentVault.Proofs.TextBytes
import Mathlib.Data.List.Induction

/-!
# Hexadecimal text

A text is read as bytes if it is an even number of hexadecimal digits, and is then written
again as the same digits in lower case.  No two byte strings are written alike.
-/

namespace ContentVault

namespace Hex

/-! ### Writing -/

/-- A digit has the value that it was made for. -/
theorem value?_digit {half : UInt8} (hhalf : half.toNat < 16) :
    value? (digit half).toUInt8 = some half := by
  have hdigits : ∀ n < 16, value? (digit (.ofNat n)).toUInt8 = some (.ofNat n) := by decide
  have hvalue := hdigits half.toNat hhalf
  rw [UInt8.ofNat_toNat] at hvalue
  exact hvalue

theorem toNat_high (byte : UInt8) : (byte / 16).toNat = byte.toNat / 16 :=
  UInt8.toNat_div byte 16

theorem toNat_low (byte : UInt8) : (byte % 16).toNat = byte.toNat % 16 :=
  UInt8.toNat_mod byte 16

theorem toNat_high_lt (byte : UInt8) : (byte / 16).toNat < 16 := by
  have hlt := byte.toNat_lt
  rw [toNat_high]
  omega

theorem toNat_low_lt (byte : UInt8) : (byte % 16).toNat < 16 := by
  rw [toNat_low]
  exact Nat.mod_lt _ (by decide)

/-- What holds of the sixteen digits holds of those that a byte is written as. -/
theorem forall_mem_digits {P : Char → Prop} (hall : ∀ n < 16, P (digit (.ofNat n))) {byte : UInt8}
    {c : Char} (hc : c ∈ digits byte) : P c := by
  have hdigit {half : UInt8} (hhalf : half.toNat < 16) : P (digit half) := by
    have hchar := hall half.toNat hhalf
    rwa [UInt8.ofNat_toNat] at hchar
  rcases List.mem_cons.1 hc with rfl | hc
  · exact hdigit (toNat_high_lt byte)
  · rw [List.mem_singleton.1 hc]
    exact hdigit (toNat_low_lt byte)

theorem digits_injective {left right : UInt8} (heq : digits left = digits right) :
    left = right := by
  simp only [digits, List.cons.injEq, and_true] at heq
  have hhigh : left / 16 = right / 16 := by
    rw [← Option.some.injEq, ← value?_digit (toNat_high_lt left), heq.1,
      value?_digit (toNat_high_lt right)]
  have hlow : left % 16 = right % 16 := by
    rw [← Option.some.injEq, ← value?_digit (toNat_low_lt left), heq.2,
      value?_digit (toNat_low_lt right)]
  have hhigh' := congrArg UInt8.toNat hhigh
  have hlow' := congrArg UInt8.toNat hlow
  rw [toNat_high, toNat_high] at hhigh'
  rw [toNat_low, toNat_low] at hlow'
  apply UInt8.toNat_inj.1
  omega

theorem toList_encode (bytes : Bytes) : (encode bytes).toList = bytes.flatMap digits :=
  String.toList_ofList

theorem length_flatMap_digits (bytes : Bytes) :
    (bytes.flatMap digits).length = 2 * bytes.length := by
  induction bytes with
  | nil => rfl
  | cons byte bytes ih =>
    rw [List.flatMap_cons, List.length_append, ih, List.length_cons]
    have htwo : (digits byte).length = 2 := rfl
    omega

theorem encode_injective {left right : Bytes} (heq : encode left = encode right) :
    left = right := by
  have hlist := congrArg String.toList heq
  rw [toList_encode, toList_encode] at hlist
  clear heq
  induction left generalizing right with
  | nil =>
    have hlength := congrArg List.length hlist
    rw [length_flatMap_digits, length_flatMap_digits, List.length_nil] at hlength
    exact (List.length_eq_zero_iff.1 (by omega)).symm
  | cons byte left ih =>
    cases right with
    | nil => cases hlist
    | cons byte' right =>
      obtain ⟨hfirst, hrest⟩ := List.append_inj hlist rfl
      rw [digits_injective hfirst, ih hrest]

/-! ### Reading -/

def IsDigit (c : Char) : Prop :=
  c ∈ "0123456789abcdefABCDEF".toList

instance : DecidablePred IsDigit := fun c =>
  inferInstanceAs (Decidable (c ∈ "0123456789abcdefABCDEF".toList))

/-- An even number of digits. -/
structure IsText (chars : List Char) : Prop where
  even : chars.length % 2 = 0
  digits : ∀ c ∈ chars, IsDigit c

theorem isText_iff {chars : List Char} : IsText chars ↔
    chars.length % 2 = 0 ∧ chars.all (fun c => decide (IsDigit c)) := by
  constructor
  · rintro ⟨heven, hdigits⟩
    exact ⟨heven, List.all_eq_true.2 fun c hc => decide_eq_true (hdigits c hc)⟩
  · rintro ⟨heven, hdigits⟩
    exact ⟨heven, fun c hc => of_decide_eq_true (List.all_eq_true.1 hdigits c hc)⟩

instance : DecidablePred IsText := fun _ => decidable_of_iff _ isText_iff.symm

theorem toNat_lt_of_isDigit {c : Char} (hc : IsDigit c) : c.toNat < 128 := by
  have hall : "0123456789abcdefABCDEF".toList.all (fun d => decide (d.toNat < 128)) := by decide
  exact of_decide_eq_true (List.all_eq_true.1 hall c hc)

/-- An ASCII character has a value if it is a digit, and that value is written as the same digit
in lower case. -/
theorem map_digit_value? {c : Char} (hascii : c.toNat < 128) :
    (value? c.toUInt8).map digit = if IsDigit c then some c.toLower else none :=
  forall_ascii (P := fun c =>
    (value? c.toUInt8).map digit = if IsDigit c then some c.toLower else none)
    (by decide +kernel) hascii

/-- Only ASCII bytes have a value, which is that of half a byte. -/
theorem toNat_lt_of_value? {byte half : UInt8} (hvalue : value? byte = some half) :
    byte.toNat < 128 ∧ half.toNat < 16 := by
  have hall : ∀ n < 256, ∀ half ∈ value? (.ofNat n), n < 128 ∧ half.toNat < 16 := by
    decide +kernel
  apply hall byte.toNat byte.toNat_lt half
  rwa [UInt8.ofNat_toNat]

theorem exists_value?_of_isDigit {c : Char} (hc : IsDigit c) :
    ∃ half, value? c.toUInt8 = some half ∧ digit half = c.toLower := by
  have hvalue := map_digit_value? (toNat_lt_of_isDigit hc)
  rw [if_pos hc] at hvalue
  exact Option.map_eq_some_iff.1 hvalue

/-- The byte with these halves is written as their two digits. -/
theorem digits_join {high low : UInt8} (hhigh : high.toNat < 16) (hlow : low.toNat < 16) :
    digits (16 * high + low) = [digit high, digit low] := by
  have hbyte : (16 * high + low).toNat = 16 * high.toNat + low.toNat :=
    calc
      (16 * high + low).toNat = (16 * high.toNat % 256 + low.toNat) % 256 := by
        rw [UInt8.toNat_add, UInt8.toNat_mul]
        rfl
      _ = 16 * high.toNat + low.toNat := by omega
  have hdiv : (16 * high + low) / 16 = high := by
    rw [← UInt8.toNat_inj, toNat_high, hbyte]
    omega
  have hmod : (16 * high + low) % 16 = low := by
    rw [← UInt8.toNat_inj, toNat_low, hbyte]
    omega
  rw [digits, hdiv, hmod]

/-- Digits are read in pairs, and the bytes are written as the same digits in lower case. -/
theorem exists_decodePairs {chars : List Char} (htext : IsText chars) (position : Nat) :
    ∃ bytes, decodePairs position (chars.map Char.toUInt8) = .ok bytes ∧
      bytes.flatMap digits = chars.map Char.toLower := by
  induction chars using List.twoStepInduction generalizing position with
  | nil => exact ⟨[], rfl, rfl⟩
  | singleton c => exact absurd htext.even Nat.one_ne_zero
  | cons_cons first second chars ih _ =>
    have hrest : IsText chars := by
      constructor
      · have heven := htext.even
        rw [List.length_cons, List.length_cons] at heven
        omega
      · exact fun c hc => htext.digits c (List.mem_cons_of_mem _ (List.mem_cons_of_mem _ hc))
    obtain ⟨high, hhigh, hfirst⟩ := exists_value?_of_isDigit (htext.digits first List.mem_cons_self)
    obtain ⟨low, hlow, hsecond⟩ := exists_value?_of_isDigit
      (htext.digits second (List.mem_cons_of_mem _ List.mem_cons_self))
    obtain ⟨bytes, hbytes, hdigits⟩ := ih hrest (position + 2)
    refine ⟨(16 * high + low) :: bytes, ?_, ?_⟩
    · rw [List.map_cons, List.map_cons, decodePairs, hhigh, hlow]
      simp only [hbytes]
      rfl
    · rw [List.flatMap_cons, digits_join (toNat_lt_of_value? hhigh).2 (toNat_lt_of_value? hlow).2,
        hfirst, hsecond, hdigits]
      rfl

/-- Nothing but values is read. -/
theorem isSome_value?_of_decodePairs {position : Nat} {raw bytes : Bytes}
    (hread : decodePairs position raw = .ok bytes) : ∀ byte ∈ raw, (value? byte).isSome := by
  fun_induction decodePairs position raw generalizing bytes with
  | case1 => exact fun byte hmem => absurd hmem List.not_mem_nil
  | case2 => cases hread
  | case3 => cases hread
  | case4 => cases hread
  | case5 position high low rest h l hhigh hlow ih =>
    cases hrest : decodePairs (position + 2) rest with
    | error error =>
      rw [hrest] at hread
      cases hread
    | ok more =>
      intro byte hmem
      rcases List.mem_cons.1 hmem with rfl | hmem
      · exact Option.isSome_of_eq_some ‹_›
      · rcases List.mem_cons.1 hmem with rfl | hmem
        · exact Option.isSome_of_eq_some ‹_›
        · exact ih hrest byte hmem

theorem exists_decode {chars : List Char} (htext : IsText chars) :
    ∃ bytes, decode (String.ofList chars) = .ok bytes ∧
      encode bytes = String.ofList (chars.map Char.toLower) := by
  have hraw := Bytes.ofText_ofList fun c hc => toNat_lt_of_isDigit (htext.digits c hc)
  obtain ⟨bytes, hread, hdigits⟩ := exists_decodePairs htext 0
  refine ⟨bytes, ?_, by rw [encode, hdigits]⟩
  rw [decode, hraw, List.length_map, if_pos htext.even, hread]

theorem isText_of_decode {chars : List Char} {bytes : Bytes}
    (hread : decode (String.ofList chars) = .ok bytes) : IsText chars := by
  simp only [decode] at hread
  split at hread
  · rename_i heven
    have hvalues := isSome_value?_of_decodePairs hread
    have hascii : ∀ c ∈ chars, c.toNat < 128 := by
      intro c hc
      by_contra hwide
      obtain ⟨byte, hbyte⟩ := List.exists_mem_of_ne_nil _ (@String.utf8EncodeChar_ne_nil c)
      have hle := Bytes.le_of_mem_utf8EncodeChar (Nat.not_lt.1 hwide) byte hbyte
      rw [Bytes.ofText_ofList_eq_flatMap] at hvalues
      obtain ⟨half, hhalf⟩ := Option.isSome_iff_exists.1
        (hvalues byte (List.mem_flatMap_of_mem hc hbyte))
      exact absurd (toNat_lt_of_value? hhalf).1 (Nat.not_lt.2 hle)
    rw [Bytes.ofText_ofList hascii] at hvalues heven
    rw [List.length_map] at heven
    refine ⟨heven, fun c hc => ?_⟩
    obtain ⟨half, hhalf⟩ := Option.isSome_iff_exists.1
      (hvalues c.toUInt8 (List.mem_map_of_mem hc))
    have hdigit := map_digit_value? (hascii c hc)
    rw [hhalf, Option.map_some] at hdigit
    by_contra hnot
    rw [if_neg hnot] at hdigit
    cases hdigit
  · cases hread

/-- A text is read just if it is an even number of digits; what is read is written as the same
digits in lower case. -/
theorem decode_eq_ok_iff {chars : List Char} {bytes : Bytes} :
    decode (String.ofList chars) = .ok bytes ↔
      IsText chars ∧ encode bytes = String.ofList (chars.map Char.toLower) := by
  constructor
  · intro hread
    have htext := isText_of_decode hread
    obtain ⟨bytes', hread', hencode⟩ := exists_decode htext
    cases hread.symm.trans hread'
    exact ⟨htext, hencode⟩
  · rintro ⟨htext, hencode⟩
    obtain ⟨bytes', hread, hencode'⟩ := exists_decode htext
    rw [hread, encode_injective (hencode.trans hencode'.symm)]

/-- What is written are digits in lower case. -/
theorem isDigit_of_mem_encode {bytes : Bytes} {c : Char} (hc : c ∈ (encode bytes).toList) :
    IsDigit c ∧ c.toLower = c := by
  rw [toList_encode] at hc
  obtain ⟨byte, -, hc⟩ := List.mem_flatMap.1 hc
  exact forall_mem_digits (P := fun c => IsDigit c ∧ c.toLower = c) (by decide) hc

theorem isText_encode (bytes : Bytes) : IsText (encode bytes).toList where
  even := by
    rw [toList_encode, length_flatMap_digits]
    exact Nat.mul_mod_right 2 _
  digits := fun _ hc => (isDigit_of_mem_encode hc).1

theorem map_toLower_encode (bytes : Bytes) :
    (encode bytes).toList.map Char.toLower = (encode bytes).toList :=
  (List.map_congr_left fun _ hc => (isDigit_of_mem_encode hc).2).trans (List.map_id _)

end Hex

end ContentVault
