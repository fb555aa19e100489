import ContentVault.Bytes
import ContentVault.Text.Quoted

/-!
# Hexadecimal text

A byte string is written as two lowercase digits for each byte.  Reading takes
digits of either case, and an ill-formed text is refused for its first fault.
-/

namespace ContentVault.Hex

inductive Error where
  | oddLength
  | notADigit (byte : UInt8) (position : Nat)
  deriving DecidableEq, Repr

/-- The faulty byte is shown as the character with that code. -/
def Error.message : Error → String
  | .oddLength => "Odd number of digits"
  | .notADigit byte position =>
    s!"Invalid character {Text.quotedSingle (Char.ofNat byte.toNat)} at position {position}"

/-- The digit for a value below sixteen. -/
def digit (value : UInt8) : Char :=
  Char.ofNat (if value < 10 then 48 + value.toNat else 87 + value.toNat)

/-- The two digits of a byte, the high half first. -/
def digits (byte : UInt8) : List Char :=
  [digit (byte / 16), digit (byte % 16)]

/-- Two lowercase digits for each byte. -/
def encode (bytes : Bytes) : String :=
  String.ofList (bytes.flatMap digits)

/-- The value of a digit of either case. -/
def value? (byte : UInt8) : Option UInt8 :=
  if 48 ≤ byte ∧ byte ≤ 57 then some (byte - 48)
  else if 97 ≤ byte ∧ byte ≤ 102 then some (byte - 87)
  else if 65 ≤ byte ∧ byte ≤ 70 then some (byte - 55)
  else none

/-- Reads digits in pairs; `position` counts the digits before `text`. -/
def decodePairs (position : Nat) : Bytes → Except Error Bytes
  | [] => .ok []
  | [_] => .error .oddLength
  | high :: low :: rest =>
    match value? high, value? low with
    | none, _ => .error (.notADigit high position)
    | some _, none => .error (.notADigit low (position + 1))
    | some h, some l => (decodePairs (position + 2) rest).map ((16 * h + l) :: ·)

/-- The length is looked at before the digits. -/
def decode (text : String) : Except Error Bytes :=
  let bytes := Bytes.ofText text
  if bytes.length % 2 = 0 then decodePairs 0 bytes else .error .oddLength

end ContentVault.Hex
