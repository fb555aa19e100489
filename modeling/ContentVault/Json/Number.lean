import ContentVault.Decimal
import ContentVault.Error

/-!
# Numbers in JSON

A number is read for the sake of natural numbers below 2^64, which are what the
formats of this library call for.  Of every other number it is only kept that it
is one, provided that its magnitude does not exceed the range of a
double-precision float.
-/

namespace ContentVault.Json

open Decimal (isDigit digitValue)

structure NumberText where
  negative : Bool
  whole : Bytes
  /-- The digits after the point; there is no point if there are none. -/
  fraction : Bytes
  /-- Whether the exponent is negative, and its digits. -/
  exponent : Option (Bool × Bytes)
  deriving DecidableEq, Repr

def readDigits (input : Bytes) : Except JsonFault (Bytes × Bytes) :=
  match input with
  | [] => .error .truncated
  | byte :: _ =>
    if isDigit byte then .ok (input.takeWhile isDigit, input.dropWhile isDigit)
    else .error .malformed

def readFraction (input : Bytes) : Except JsonFault (Bytes × Bytes) :=
  match input with
  | byte :: rest => if byte = 0x2e then readDigits rest else .ok ([], input)
  | [] => .ok ([], input)

def readExponentSign : Bytes → Bool × Bytes
  | byte :: rest =>
    if byte = 0x2d then (true, rest) else if byte = 0x2b then (false, rest)
    else (false, byte :: rest)
  | [] => (false, [])

def readExponent (input : Bytes) : Except JsonFault (Option (Bool × Bytes) × Bytes) :=
  match input with
  | byte :: rest =>
    if byte = 0x65 ∨ byte = 0x45 then
      let (negative, unsigned) := readExponentSign rest
      match readDigits unsigned with
      | .error fault => .error fault
      | .ok (digits, after) => .ok (some (negative, digits), after)
    else .ok (none, input)
  | [] => .ok (none, input)

/-- The digits before the point: a zero stands alone. -/
def readWhole (input : Bytes) : Except JsonFault (Bytes × Bytes) :=
  match readDigits input with
  | .error fault => .error fault
  | .ok (digits, rest) =>
    if digits.head? = some 0x30 ∧ digits.length ≠ 1 then .error .malformed
    else .ok (digits, rest)

def readSign : Bytes → Bool × Bytes
  | byte :: rest => if byte = 0x2d then (true, rest) else (false, byte :: rest)
  | [] => (false, [])

def readNumberText (input : Bytes) : Except JsonFault (NumberText × Bytes) :=
  let (negative, rest) := readSign input
  match readWhole rest with
  | .error fault => .error fault
  | .ok (whole, rest) =>
    match readFraction rest with
    | .error fault => .error fault
    | .ok (fraction, rest) =>
      match readExponent rest with
      | .error fault => .error fault
      | .ok (exponent, rest) => .ok (⟨negative, whole, fraction, exponent⟩, rest)

/-- Appends digits to a significand as long as it stays below 2^64: the new
significand, how many digits it took, and the digits it did not take. -/
def takeDigits (significand taken : Nat) : Bytes → Nat × Nat × Bytes
  | [] => (significand, taken, [])
  | digit :: rest =>
    let next := 10 * significand + digitValue digit
    if next < UInt64.size then takeDigits next (taken + 1) rest
    else (significand, taken, digit :: rest)

/-- The number with 53 significant bits that is nearest, an even one of two. -/
def roundToDouble (n : Nat) : Nat :=
  let excess := n.log2 - 52
  let unit := Nat.pow 2 excess
  let low := n / unit
  let rest := n % unit
  let up := unit < 2 * rest ∨ (unit = 2 * rest ∧ low % 2 = 1)
  if up then (low + 1) * unit else low * unit

/-- The least magnitude that is no longer rounded to a double: half a step above the
largest one. -/
def doubleLimit : Nat :=
  Nat.pow 2 1024 - Nat.pow 2 970

/-- Exponents from here on are not told apart; one of them outweighs all the digits
that a number can be written with. -/
def exponentLimit : Nat :=
  Nat.pow 2 31

namespace NumberText

/-- The value, when it is written as a natural number below 2^64. -/
def natural? (number : NumberText) : Option UInt64 :=
  let n := Decimal.number number.whole
  if !number.negative ∧ number.fraction = [] ∧ number.exponent = none ∧ n < UInt64.size then
    some (UInt64.ofNat n)
  else none

/-- Whether the magnitude exceeds the range of a double.  Digits beyond a 64-bit
significand count only by their place. -/
def overflows (number : NumberText) : Bool :=
  let (significand, _, dropped) := takeDigits 0 0 number.whole
  let (significand, taken, _) := takeDigits significand 0 number.fraction
  let written : Int := match number.exponent with
    | none => 0
    | some (true, digits) => -(Decimal.numberUpTo exponentLimit digits : Int)
    | some (false, digits) => Decimal.numberUpTo exponentLimit digits
  let exponent : Int := written + dropped.length - taken
  significand ≠ 0 && 0 ≤ exponent &&
    (308 < exponent ||
      doubleLimit ≤ roundToDouble significand * roundToDouble (Nat.pow 10 exponent.toNat))

end NumberText

/-- Reads a number; its value is kept if it is a natural number below 2^64. -/
def readNumber (input : Bytes) : Except JsonFault (Option UInt64 × Bytes) :=
  match readNumberText input with
  | .error fault => .error fault
  | .ok (number, rest) =>
    if number.overflows then .error .malformed else .ok (number.natural?, rest)

/-- Passes over a number.  Here a number that is broken off by the end of the
input counts as malformed. -/
def skipNumber (input : Bytes) : Except JsonFault (Unit × Bytes) :=
  match readNumberText input with
  | .ok (_, rest) => .ok ((), rest)
  | .error _ => .error .malformed

theorem length_readDigits {input digits rest : Bytes}
    (hread : readDigits input = .ok (digits, rest)) : rest.length < input.length := by
  unfold readDigits at hread
  split at hread
  · cases hread
  · split at hread
    · cases hread
      rename_i byte tail hdigit
      have := (List.dropWhile_sublist (l := tail) isDigit).length_le
      simp only [List.dropWhile_cons, hdigit, if_true, List.length_cons]
      omega
    · cases hread

theorem length_readFraction {input digits rest : Bytes}
    (hread : readFraction input = .ok (digits, rest)) : rest.length ≤ input.length := by
  unfold readFraction at hread
  split at hread
  · split at hread
    · have := length_readDigits hread
      simp only [List.length_cons]
      omega
    · cases hread
      exact Nat.le_refl _
  · cases hread
    exact Nat.le_refl _

theorem length_readExponentSign (input : Bytes) :
    (readExponentSign input).2.length ≤ input.length := by
  unfold readExponentSign
  grind

theorem length_readExponent {input rest : Bytes} {exponent : Option (Bool × Bytes)}
    (hread : readExponent input = .ok (exponent, rest)) : rest.length ≤ input.length := by
  unfold readExponent at hread
  split at hread
  · rename_i byte tail
    split at hread
    · have hsign := length_readExponentSign tail
      dsimp only at hread
      split at hread
      · cases hread
      · cases hread
        have hdigits := length_readDigits (by assumption)
        simp only [List.length_cons]
        omega
    · cases hread
      exact Nat.le_refl _
  · cases hread
    exact Nat.le_refl _

theorem length_readWhole {input digits rest : Bytes}
    (hread : readWhole input = .ok (digits, rest)) : rest.length < input.length := by
  rw [readWhole] at hread
  split at hread
  · cases hread
  · split at hread
    · cases hread
    · cases hread
      exact length_readDigits (by assumption)

theorem length_readSign (input : Bytes) : (readSign input).2.length ≤ input.length := by
  unfold readSign
  grind

theorem length_readNumberText {input rest : Bytes} {number : NumberText}
    (hread : readNumberText input = .ok (number, rest)) : rest.length < input.length := by
  have hsign := length_readSign input
  rw [readNumberText] at hread
  dsimp only at hread
  split at hread
  · cases hread
  · rename_i hwhole
    have hwhole := length_readWhole hwhole
    split at hread
    · cases hread
    · rename_i hfraction
      have hfraction := length_readFraction hfraction
      split at hread
      · cases hread
      · rename_i hexponent
        have hexponent := length_readExponent hexponent
        cases hread
        omega

theorem length_readNumber {input rest : Bytes} {value : Option UInt64}
    (hread : readNumber input = .ok (value, rest)) : rest.length < input.length := by
  rw [readNumber] at hread
  split at hread
  · cases hread
  · split at hread
    · cases hread
    · cases hread
      exact length_readNumberText (by assumption)

theorem length_skipNumber {input rest : Bytes} {u : Unit}
    (hskip : skipNumber input = .ok (u, rest)) : rest.length < input.length := by
  rw [skipNumber] at hskip
  split at hskip
  · cases hskip
    exact length_readNumberText (by assumption)
  · cases hskip

end ContentVault.Json
