import ContentVault.Json.Number
import ContentVault.Proofs.NaturalNumbers

/-!
# Numbers in JSON

A number is a sign, digits of which the first is not zero unless it is the only one, digits after a
point, and an exponent; all but the digits before the point may be missing.  Whatever is written so
is read as the number, up to the first byte that cannot continue it.
-/

namespace ContentVault.Json

open Decimal (digits isDigit)

/-! ### Spellings -/

/-- Digits, of which there is at least one. -/
structure IsDigits (bytes : Bytes) : Prop where
  ne_nil : bytes ≠ []
  all : ∀ byte ∈ bytes, isDigit byte = true

inductive SpellsFraction : Bytes → Bytes → Prop where
  | missing : SpellsFraction [] []
  | point {digits : Bytes} (hdigits : IsDigits digits) : SpellsFraction digits (0x2e :: digits)

/-- The signs that an exponent can be written with, and whether it is negative then. -/
def exponentSigns : List (Bool × Bytes) :=
  [(false, []), (false, [0x2b]), (true, [0x2d])]

inductive SpellsExponent : Option (Bool × Bytes) → Bytes → Prop where
  | missing : SpellsExponent none []
  | digits {negative : Bool} {letter : UInt8} {sign digits : Bytes}
      (hletter : letter = 0x65 ∨ letter = 0x45) (hsign : (negative, sign) ∈ exponentSigns)
      (hdigits : IsDigits digits) :
      SpellsExponent (some (negative, digits)) (letter :: (sign ++ digits))

inductive SpellsNumber : NumberText → Bytes → Prop where
  | parts (negative : Bool) {whole fraction fractionBytes exponentBytes : Bytes}
      {exponent : Option (Bool × Bytes)} (hwhole : IsDigits whole)
      (hzero : whole.head? = some 0x30 → whole = [0x30])
      (hfraction : SpellsFraction fraction fractionBytes)
      (hexponent : SpellsExponent exponent exponentBytes) :
      SpellsNumber ⟨negative, whole, fraction, exponent⟩
        ((if negative then [0x2d] else []) ++ (whole ++ (fractionBytes ++ exponentBytes)))

/-- Whether the bytes cannot continue a number that ends before them. -/
def EndsNumber (rest : Bytes) : Prop :=
  ∀ byte ∈ rest.head?, isDigit byte = false ∧ byte ≠ 0x2e ∧ byte ≠ 0x65 ∧ byte ≠ 0x45

variable {number : NumberText} {bytes rest : Bytes}

/-! ### Reading -/

theorem readDigits_append (hdigits : IsDigits bytes)
    (hrest : ∀ byte ∈ rest.head?, isDigit byte = false) :
    readDigits (bytes ++ rest) = .ok (bytes, rest) := by
  have htake : (bytes ++ rest).takeWhile isDigit = bytes := by
    rw [List.takeWhile_append_of_pos hdigits.all]
    cases rest with
    | nil => simp
    | cons byte rest => simp [hrest byte rfl]
  have hdrop : (bytes ++ rest).dropWhile isDigit = rest := by
    rw [List.dropWhile_append_of_pos hdigits.all]
    cases rest with
    | nil => simp
    | cons byte rest => simp [hrest byte rfl]
  cases bytes with
  | nil => exact absurd rfl hdigits.ne_nil
  | cons digit bytes =>
    rw [List.cons_append] at htake hdrop ⊢
    simp only [readDigits, hdigits.all digit List.mem_cons_self, if_true, htake, hdrop]

theorem IsDigits.exists_cons (hdigits : IsDigits bytes) :
    ∃ digit more, bytes = digit :: more ∧ isDigit digit = true := by
  obtain ⟨digit, more, rfl⟩ := List.exists_cons_of_ne_nil hdigits.ne_nil
  exact ⟨digit, more, rfl, hdigits.all digit List.mem_cons_self⟩

theorem ne_of_isDigit {digit other : UInt8} (hdigit : isDigit digit = true)
    (hother : isDigit other = false) : digit ≠ other := by
  rintro rfl
  rw [hdigit] at hother
  cases hother

theorem readExponentSign_of_mem {negative : Bool} {sign : Bytes}
    (hsign : (negative, sign) ∈ exponentSigns) (hdigits : IsDigits bytes) (rest : Bytes) :
    readExponentSign (sign ++ (bytes ++ rest)) = (negative, bytes ++ rest) := by
  obtain ⟨digit, more, rfl, hdigit⟩ := hdigits.exists_cons
  have hminus : digit ≠ 0x2d := ne_of_isDigit hdigit (by decide)
  have hplus : digit ≠ 0x2b := ne_of_isDigit hdigit (by decide)
  simp only [exponentSigns, List.mem_cons, Prod.mk.injEq, List.not_mem_nil, or_false] at hsign
  rcases hsign with ⟨rfl, rfl⟩ | ⟨rfl, rfl⟩ | ⟨rfl, rfl⟩
  · simp [readExponentSign, hminus, hplus]
  · simp [readExponentSign]
  · simp [readExponentSign]

theorem readExponent_of_spells {exponent : Option (Bool × Bytes)}
    (hspells : SpellsExponent exponent bytes) (hrest : EndsNumber rest) :
    readExponent (bytes ++ rest) = .ok (exponent, rest) := by
  cases hspells with
  | missing =>
    cases rest with
    | nil => rfl
    | cons byte rest =>
      obtain ⟨-, -, hsmall, hlarge⟩ := hrest byte rfl
      simp [readExponent, hsmall, hlarge]
  | digits hletter hsign hdigits =>
    have hread := readDigits_append hdigits fun byte hbyte => (hrest byte hbyte).1
    simp only [List.cons_append, List.append_assoc, readExponent, if_pos hletter,
      readExponentSign_of_mem hsign hdigits, hread]

/-- What follows the digits after the point: it does not begin with another, nor with a point. -/
theorem head?_exponent {exponent : Option (Bool × Bytes)}
    (hspells : SpellsExponent exponent bytes) (hrest : EndsNumber rest) :
    ∀ byte ∈ (bytes ++ rest).head?, isDigit byte = false ∧ byte ≠ 0x2e := by
  cases hspells with
  | missing => exact fun byte hbyte => ⟨(hrest byte hbyte).1, (hrest byte hbyte).2.1⟩
  | digits hletter hsign hdigits =>
    rintro byte hbyte
    cases hbyte
    rcases hletter with rfl | rfl <;> decide

theorem readFraction_of_spells {fraction : Bytes} (hspells : SpellsFraction fraction bytes)
    (hrest : ∀ byte ∈ rest.head?, isDigit byte = false ∧ byte ≠ 0x2e) :
    readFraction (bytes ++ rest) = .ok (fraction, rest) := by
  cases hspells with
  | missing =>
    cases rest with
    | nil => rfl
    | cons byte rest => simp [readFraction, (hrest byte rfl).2]
  | point hdigits =>
    have hread := readDigits_append hdigits fun byte hbyte => (hrest byte hbyte).1
    simp only [List.cons_append, readFraction, if_true, hread]

theorem readNumberText_of_spells (hspells : SpellsNumber number bytes) (hrest : EndsNumber rest) :
    readNumberText (bytes ++ rest) = .ok (number, rest) := by
  obtain ⟨negative, hwhole, hzero, hfraction, hexponent⟩ := hspells
  rename_i whole fraction fractionBytes exponentBytes exponent
  have hsign : readSign ((if negative then [0x2d] else []) ++
      (whole ++ (fractionBytes ++ (exponentBytes ++ rest)))) =
        (negative, whole ++ (fractionBytes ++ (exponentBytes ++ rest))) := by
    obtain ⟨digit, more, rfl, hdigit⟩ := hwhole.exists_cons
    cases negative with
    | true => rfl
    | false =>
      have hminus : digit ≠ 0x2d := ne_of_isDigit hdigit (by decide)
      simp [readSign, hminus]
  have hhead := head?_exponent hexponent hrest
  have hread : readWhole (whole ++ (fractionBytes ++ (exponentBytes ++ rest))) =
      .ok (whole, fractionBytes ++ (exponentBytes ++ rest)) := by
    have hdigits : readDigits (whole ++ (fractionBytes ++ (exponentBytes ++ rest))) =
        .ok (whole, fractionBytes ++ (exponentBytes ++ rest)) := by
      refine readDigits_append hwhole ?_
      cases hfraction with
      | missing => exact fun byte hbyte => (hhead byte hbyte).1
      | point hdigits =>
        rintro byte hbyte
        cases hbyte
        decide
    have hsingle : ¬(whole.head? = some 0x30 ∧ whole.length ≠ 1) := by
      rintro ⟨hfirst, hlength⟩
      rw [hzero hfirst] at hlength
      exact hlength rfl
    simp only [readWhole, hdigits, if_neg hsingle]
  simp only [readNumberText, List.append_assoc, hsign, hread, readFraction_of_spells hfraction hhead,
    readExponent_of_spells hexponent hrest]

/-- A number that does not exceed the range of a double is read. -/
theorem readNumber_of_spells (hspells : SpellsNumber number bytes)
    (hfits : number.overflows = false) (hrest : EndsNumber rest) :
    readNumber (bytes ++ rest) = .ok (number.natural?, rest) := by
  simp [readNumber, readNumberText_of_spells hspells hrest, hfits]

/-- A number of any magnitude is passed over. -/
theorem skipNumber_of_spells (hspells : SpellsNumber number bytes) (hrest : EndsNumber rest) :
    skipNumber (bytes ++ rest) = .ok ((), rest) := by
  simp only [skipNumber, readNumberText_of_spells hspells hrest]

/-- A number begins with its sign or a digit. -/
theorem SpellsNumber.head {byte : UInt8} {more : Bytes}
    (hspells : SpellsNumber number (byte :: more)) : byte = 0x2d ∨ isDigit byte = true := by
  generalize hbytes : byte :: more = bytes at hspells
  obtain ⟨negative, hwhole, -, -, -⟩ := hspells
  obtain ⟨digit, tail, rfl, hdigit⟩ := hwhole.exists_cons
  cases negative with
  | true => exact .inl (List.cons.inj hbytes).1
  | false => exact .inr ((List.cons.inj hbytes).1 ▸ hdigit)

/-- It does not begin with anything else. -/
theorem SpellsNumber.head_ne {byte other : UInt8} {more : Bytes}
    (hspells : SpellsNumber number (byte :: more)) (hminus : other ≠ 0x2d)
    (hdigit : isDigit other = false) : byte ≠ other := by
  rcases hspells.head with rfl | hbyte
  · exact hminus.symm
  · exact ne_of_isDigit hbyte hdigit

/-! ### Natural numbers -/

/-- A number below 2^64 is taken into the significand with all its digits. -/
theorem takeDigits_of_lt {number : Bytes} {start : Nat}
    (hlt : Decimal.numberFrom start number < UInt64.size) (taken : Nat) :
    takeDigits start taken number =
      (Decimal.numberFrom start number, taken + number.length, []) := by
  induction number generalizing start taken with
  | nil => rfl
  | cons digit number ih =>
    rw [Decimal.numberFrom_cons] at hlt ⊢
    have hnext := lt_of_le_of_lt (Decimal.le_numberFrom _ number) hlt
    simp only [takeDigits, hnext, if_true, ih hlt, List.length_cons]
    rw [Nat.add_assoc, Nat.add_comm 1]

theorem roundToDouble_le {n : Nat} (hlt : n < 2 ^ 64) : roundToDouble n ≤ 2 ^ 65 := by
  have hlog : n.log2 - 52 ≤ 11 := by
    by_cases hzero : n = 0
    · subst hzero
      decide
    · have := (Nat.log2_lt hzero).2 hlt
      omega
  have hunit : 2 ^ (n.log2 - 52) ≤ 2 ^ 11 := Nat.pow_le_pow_right (by decide) hlog
  have hlow : n / 2 ^ (n.log2 - 52) * 2 ^ (n.log2 - 52) ≤ n := Nat.div_mul_le_self _ _
  simp only [roundToDouble, Nat.pow_eq]
  split
  · rw [Nat.add_mul, Nat.one_mul]
    omega
  · omega

/-- A natural number below 2^64 is in the range of a double. -/
theorem overflows_of_natural? {n : UInt64} (hnatural : number.natural? = some n) :
    number.overflows = false := by
  obtain ⟨negative, whole, fraction, exponent⟩ := number
  simp only [NumberText.natural?, Option.ite_none_right_eq_some] at hnatural
  obtain ⟨⟨-, rfl, rfl, hlt⟩, -⟩ := hnatural
  have hlt' : Decimal.numberFrom 0 whole < UInt64.size := hlt
  have htake := takeDigits_of_lt hlt' 0
  have hround : roundToDouble (Decimal.numberFrom 0 whole) * roundToDouble (Nat.pow 10 0) <
      doubleLimit := by
    have hone : roundToDouble (Nat.pow 10 0) = 1 := by decide
    have hlimit : 2 ^ 65 < doubleLimit := by decide +kernel
    rw [hone, Nat.mul_one]
    exact lt_of_le_of_lt (roundToDouble_le hlt') hlimit
  simp only [NumberText.overflows, htake, takeDigits]
  simp only [List.length_nil, Bool.and_eq_false_iff, Bool.or_eq_false_iff, decide_eq_false_iff_not]
  exact .inr ⟨by decide, not_le_of_gt hround⟩

/-- The digits of a natural number spell it. -/
theorem spells_digits (n : Nat) : SpellsNumber ⟨false, digits n, [], none⟩ (digits n) := by
  have hdigits : IsDigits (digits n) :=
    ⟨Decimal.digits_ne_nil n, fun byte hbyte => Decimal.isDigit_of_mem_digits hbyte⟩
  have hzero (hhead : (digits n).head? = some 0x30) : digits n = [0x30] := by
    rw [Decimal.head?_digits hhead]
    rfl
  have hspells := SpellsNumber.parts false hdigits hzero .missing .missing
  rw [List.append_nil, List.append_nil] at hspells
  exact hspells

theorem natural?_digits (n : UInt64) :
    NumberText.natural? ⟨false, digits n.toNat, [], none⟩ = some n := by
  simp [NumberText.natural?, Decimal.number_digits, n.toNat_lt]

end ContentVault.Json
