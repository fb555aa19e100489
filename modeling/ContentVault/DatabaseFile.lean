import ContentVault.ChunkStore
import ContentVault.Decimal

/-!
# Database files

The bytes that a database is kept in: a mark, and then every key and its value in
ascending order of the keys, each preceded by its length in decimal digits and a
colon.  No other bytes spell a database.
-/

namespace ContentVault.DatabaseFile

def mark : Bytes :=
  Bytes.ofText "content vault database\n"

def colon : UInt8 := 0x3a

/-- Bytes preceded by their length. -/
def frame (bytes : Bytes) : Bytes :=
  Decimal.digits bytes.length ++ colon :: bytes

def unframe? (input : Bytes) : Option (Bytes × Bytes) :=
  let length := Decimal.number (input.takeWhile Decimal.isDigit)
  match input.dropWhile Decimal.isDigit with
  | [] => none
  | byte :: rest =>
    let bytes := rest.take length
    if byte = colon ∧ bytes.length = length then some (bytes, rest.drop length) else none

theorem length_unframe? {input bytes rest : Bytes} (hframe : unframe? input = some (bytes, rest)) :
    rest.length < input.length := by
  have hlength := (List.dropWhile_sublist (l := input) Decimal.isDigit).length_le
  rw [unframe?] at hframe
  dsimp only at hframe
  split at hframe
  · cases hframe
  · rename_i byte after hafter
    rw [hafter, List.length_cons] at hlength
    split at hframe
    · cases hframe
      rw [List.length_drop]
      omega
    · cases hframe

def encode (contents : Contents) : Bytes :=
  mark ++ contents.toList.flatMap fun pair => frame (Bytes.ofText pair.1) ++ frame pair.2

set_option linter.unusedVariables false in
def readPairs? (contents : Contents) (input : Bytes) : Option Contents :=
  if input = [] then some contents
  else match hkey : unframe? input with
    | none => none
    | some (key, rest) =>
      match hvalue : unframe? rest, key.toText? with
      | some (value, rest), some key => readPairs? (contents.insert key value) rest
      | _, _ => none
termination_by input.length
decreasing_by
  exact Nat.lt_trans (length_unframe? hvalue) (length_unframe? hkey)

/-- The values in a database file, if the bytes are the content of one. -/
def decode? (bytes : Bytes) : Option Contents :=
  if bytes.take mark.length = mark then
    (readPairs? ∅ (bytes.drop mark.length)).filter fun contents => encode contents = bytes
  else none

end ContentVault.DatabaseFile
