import ContentVault.Decimal
import ContentVault.Proofs.TextBytes

/-!
# Natural numbers in decimal digits

A natural number is recovered from its digits, and only zero is written with a leading zero.
-/

namespace ContentVault

namespace Decimal

theorem toNat_toUInt8_of_isDigit {c : Char} (hdigit : c.isDigit) :
    48 ≤ c.toUInt8.toNat ∧ c.toUInt8.toNat ≤ 57 ∧ c.toUInt8.toNat = c.toNat := by
  simp only [Char.isDigit, Bool.and_eq_true, decide_eq_true_eq] at hdigit
  have hlow : 48 ≤ c.toNat := hdigit.1
  have hhigh : c.toNat ≤ 57 := hdigit.2
  have hbyte : c.toUInt8.toNat = c.toNat % 256 := rfl
  omega

theorem digits_eq_map (n : Nat) : digits n = (Nat.toDigits 10 n).map Char.toUInt8 := by
  rw [digits, Nat.toString_eq_ofList_toDigits]
  apply Bytes.ofText_ofList
  intro c hc
  have hdigit := Nat.isDigit_of_mem_toDigits (by decide) (by decide) hc
  have := toNat_toUInt8_of_isDigit hdigit
  omega

theorem isDigit_of_mem_digits {n : Nat} {byte : UInt8} (hmem : byte ∈ digits n) :
    isDigit byte = true := by
  rw [digits_eq_map, List.mem_map] at hmem
  obtain ⟨c, hc, rfl⟩ := hmem
  have hdigit := Nat.isDigit_of_mem_toDigits (by decide) (by decide) hc
  obtain ⟨hlow, hhigh, -⟩ := toNat_toUInt8_of_isDigit hdigit
  simp only [isDigit, Bool.and_eq_true, decide_eq_true_eq, UInt8.le_iff_toNat_le]
  exact ⟨hlow, hhigh⟩

theorem digits_ne_nil (n : Nat) : digits n ≠ [] := by
  rw [digits_eq_map]
  exact fun hnil => Nat.toDigits_ne_nil (List.map_eq_nil_iff.1 hnil)

/-- The number whose digits are those of `start` and then some more. -/
def numberFrom (start : Nat) (more : Bytes) : Nat :=
  more.foldl (fun n digit => 10 * n + digitValue digit) start

theorem numberFrom_cons (start : Nat) (digit : UInt8) (more : Bytes) :
    numberFrom start (digit :: more) = numberFrom (10 * start + digitValue digit) more := by
  rw [numberFrom, List.foldl_cons, numberFrom]

theorem le_numberFrom (start : Nat) (more : Bytes) : start ≤ numberFrom start more := by
  induction more generalizing start with
  | nil => exact Nat.le_refl start
  | cons digit more ih =>
    rw [numberFrom_cons]
    exact le_trans (by omega) (ih (10 * start + digitValue digit))

theorem numberFrom_map_toUInt8 {chars : List Char} (hdigits : ∀ c ∈ chars, c.isDigit)
    (start : Nat) :
    numberFrom start (chars.map Char.toUInt8) = Nat.ofDigitChars 10 chars start := by
  induction chars generalizing start with
  | nil => exact Nat.ofDigitChars_nil.symm
  | cons c chars ih =>
    have hvalue : digitValue c.toUInt8 = c.toNat - '0'.toNat := by
      have hc := toNat_toUInt8_of_isDigit (hdigits c List.mem_cons_self)
      rw [digitValue, hc.2.2]
      rfl
    rw [List.map_cons, numberFrom_cons, hvalue, Nat.ofDigitChars_cons]
    exact ih (fun d hd => hdigits d (List.mem_cons_of_mem c hd)) _

/-- The digits of a number spell it. -/
theorem number_digits (n : Nat) : number (digits n) = n := by
  have hdigits : ∀ c ∈ Nat.toDigits 10 n, c.isDigit := fun c hc =>
    Nat.isDigit_of_mem_toDigits (by decide) (by decide) hc
  rw [digits_eq_map]
  exact (numberFrom_map_toUInt8 hdigits 0).trans Nat.ofDigitChars_ten_toDigits

theorem eq_zero_of_head?_toDigits {n : Nat} (hhead : (Nat.toDigits 10 n).head? = some '0') :
    n = 0 := by
  induction n using Nat.strongRecOn with
  | ind n ih =>
    by_cases hsmall : n < 10
    · rw [Nat.toDigits_of_lt_base hsmall, List.head?_cons, Option.some.injEq,
        Nat.digitChar_eq_zero] at hhead
      exact hhead
    · have hne : Nat.toDigits 10 (n / 10) ≠ [] := Nat.toDigits_ne_nil
      rw [Nat.toDigits_of_base_le (by decide) (by omega), List.head?_append,
        List.head?_eq_some_head hne, Option.some_or, ← List.head?_eq_some_head hne] at hhead
      have hzero := ih (n / 10) (by omega) hhead
      omega

/-- Only zero is written with a leading zero, and then with no other digit. -/
theorem head?_digits {n : Nat} (hzero : (digits n).head? = some 0x30) : n = 0 := by
  rw [digits_eq_map, List.head?_map, Option.map_eq_some_iff] at hzero
  obtain ⟨c, hc, hbyte⟩ := hzero
  have hdigit := Nat.isDigit_of_mem_toDigits (by decide) (by decide) (List.mem_of_head? hc)
  have hcode := toNat_toUInt8_of_isDigit hdigit
  rw [hbyte] at hcode
  have hchar : c = '0' := by
    apply Char.toNat_inj.1
    rw [← hcode.2.2]
    rfl
  rw [hchar] at hc
  exact eq_zero_of_head?_toDigits hc

end Decimal

end ContentVault
