import ContentVault.Bytes

/-!
# Decimal digits

Natural numbers as decimal digits in bytes.
-/

namespace ContentVault.Decimal

def isDigit (byte : UInt8) : Bool :=
  48 ≤ byte && byte ≤ 57

def digitValue (byte : UInt8) : Nat :=
  byte.toNat - 48

def number (digits : Bytes) : Nat :=
  digits.foldl (fun n digit => 10 * n + digitValue digit) 0

/-- The number that digits spell, or the limit where that is less. -/
def numberUpTo (limit : Nat) (digits : Bytes) : Nat :=
  digits.foldl (fun n digit => min limit (10 * n + digitValue digit)) 0

def digits (n : Nat) : Bytes :=
  Bytes.ofText (toString n)

private theorem foldl_min_number (limit : Nat) (digits : Bytes) (n : Nat) :
    digits.foldl (fun n digit => min limit (10 * n + digitValue digit)) (min limit n) =
      min limit (digits.foldl (fun n digit => 10 * n + digitValue digit) n) := by
  induction digits generalizing n with
  | nil => rfl
  | cons digit rest ih =>
    have hstep : min limit (10 * min limit n + digitValue digit) =
        min limit (10 * n + digitValue digit) := by omega
    simp only [List.foldl_cons, hstep, ih]

theorem numberUpTo_eq_min (limit : Nat) (digits : Bytes) :
    numberUpTo limit digits = min limit (number digits) := by
  have h := foldl_min_number limit digits 0
  rwa [Nat.min_zero] at h

end ContentVault.Decimal
