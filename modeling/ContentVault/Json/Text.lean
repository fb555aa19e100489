import ContentVault.Error

/-!
# Texts in JSON

A text stands between double quotes.  Quotes, backslashes and control characters
are escaped when it is written; when it is read, every escape of the format is
understood, and the bytes of the text must be UTF-8.

A skipped text is passed over: its escapes must be complete, but they need not
stand for characters, and its bytes need not be UTF-8.
-/

namespace ContentVault.Json

def quoteMark : UInt8 := 0x22
def backslash : UInt8 := 0x5c

def hexValue? (byte : UInt8) : Option Nat :=
  if 48 ≤ byte ∧ byte ≤ 57 then some (byte.toNat - 48)
  else if 97 ≤ byte ∧ byte ≤ 102 then some (byte.toNat - 87)
  else if 65 ≤ byte ∧ byte ≤ 70 then some (byte.toNat - 55)
  else none

def hexNumber? (digits : Bytes) : Option Nat :=
  digits.foldlM (fun n digit => (hexValue? digit).map (16 * n + ·)) 0

def escapedByte? (letter : UInt8) : Option UInt8 :=
  if letter = quoteMark ∨ letter = backslash ∨ letter = 0x2f then some letter
  else if letter = 0x62 then some 8
  else if letter = 0x66 then some 12
  else if letter = 0x6e then some 10
  else if letter = 0x72 then some 13
  else if letter = 0x74 then some 9
  else none

def characterBytes (number : Nat) : Bytes :=
  String.utf8EncodeChar (Char.ofNat number)

inductive TextState where
  /-- Between characters. -/
  | plain
  /-- After a backslash. -/
  | escape
  /-- Within the four digits of a 16-bit unit. -/
  | unit (digits : Bytes)
  /-- After the first half of a pair of units: the backslash of the second. -/
  | pairMark (high : Nat)
  /-- The letter of the second half. -/
  | pairLetter (high : Nat)
  /-- Within the digits of the second half. -/
  | pairUnit (high : Nat) (digits : Bytes)
  deriving DecidableEq, Repr

/-- What one byte does to the reading of a text: it closes the text, or leads to
the next state and yields bytes of the text. -/
inductive TextStep where
  | close
  | next (state : TextState) (yield : Bytes)
  | fault
  deriving DecidableEq, Repr

def TextState.step : TextState → UInt8 → TextStep
  | .plain, byte =>
    if byte = quoteMark then .close
    else if byte = backslash then .next .escape []
    else if byte < 0x20 then .fault
    else .next .plain [byte]
  | .escape, byte =>
    if byte = 0x75 then .next (.unit []) []
    else match escapedByte? byte with
      | some escaped => .next .plain [escaped]
      | none => .fault
  | .unit digits, byte =>
    let digits := digits ++ [byte]
    if digits.length < 4 then .next (.unit digits) []
    else match hexNumber? digits with
      | none => .fault
      | some number =>
        if 0xdc00 ≤ number ∧ number ≤ 0xdfff then .fault
        else if 0xd800 ≤ number ∧ number ≤ 0xdbff then .next (.pairMark number) []
        else .next .plain (characterBytes number)
  | .pairMark high, byte => if byte = backslash then .next (.pairLetter high) [] else .fault
  | .pairLetter high, byte => if byte = 0x75 then .next (.pairUnit high []) [] else .fault
  | .pairUnit high digits, byte =>
    let digits := digits ++ [byte]
    if digits.length < 4 then .next (.pairUnit high digits) []
    else match hexNumber? digits with
      | none => .fault
      | some low =>
        if 0xdc00 ≤ low ∧ low ≤ 0xdfff then
          .next .plain (characterBytes (0x10000 + (high - 0xd800) * 0x400 + (low - 0xdc00)))
        else .fault

/-- Reads the bytes of a text up to its closing quote; `seen` holds those read
already, the last one first. -/
def readTextBytes : TextState → Bytes → Bytes → Except JsonFault (Bytes × Bytes)
  | _, _, [] => .error .truncated
  | state, seen, byte :: rest =>
    match state.step byte with
    | .close => .ok (seen.reverse, rest)
    | .next state yield => readTextBytes state (yield.reverse ++ seen) rest
    | .fault => .error .malformed

def readText (input : Bytes) : Except JsonFault (String × Bytes) :=
  match readTextBytes .plain [] input with
  | .error fault => .error fault
  | .ok (bytes, rest) =>
    match bytes.toText? with
    | some text => .ok (text, rest)
    | none => .error .malformed

/-- How much of an escape is still to come in a skipped text. -/
inductive SkipState where
  | plain
  | escape
  | digits (missing : Nat)
  deriving DecidableEq, Repr

def skipTextFrom : SkipState → Bytes → Except JsonFault (Unit × Bytes)
  | _, [] => .error .truncated
  | .plain, byte :: rest =>
    if byte = quoteMark then .ok ((), rest)
    else if byte = backslash then skipTextFrom .escape rest
    else if byte < 0x20 then .error .malformed
    else skipTextFrom .plain rest
  | .escape, byte :: rest =>
    if byte = 0x75 then
      if (rest.drop 3).isEmpty then .error .truncated else skipTextFrom (.digits 4) rest
    else if (escapedByte? byte).isSome then skipTextFrom .plain rest
    else .error .malformed
  | .digits missing, byte :: rest =>
    if (hexValue? byte).isNone then .error .malformed
    else if missing ≤ 1 then skipTextFrom .plain rest
    else skipTextFrom (.digits (missing - 1)) rest

def skipText (input : Bytes) : Except JsonFault (Unit × Bytes) :=
  skipTextFrom .plain input

def writtenChar (c : Char) : List Char :=
  if c = '"' ∨ c = '\\' then ['\\', c]
  else if c = '\x08' then ['\\', 'b']
  else if c = '\x0c' then ['\\', 'f']
  else if c = '\n' then ['\\', 'n']
  else if c = '\r' then ['\\', 'r']
  else if c = '\t' then ['\\', 't']
  else if c.toNat < 0x20 then
    ['\\', 'u', '0', '0', Nat.digitChar (c.toNat / 16), Nat.digitChar (c.toNat % 16)]
  else [c]

def writeText (text : String) : String :=
  String.ofList ('"' :: text.toList.flatMap writtenChar ++ ['"'])

theorem length_readTextBytes {state : TextState} {seen input bytes rest : Bytes}
    (hread : readTextBytes state seen input = .ok (bytes, rest)) :
    rest.length < input.length := by
  induction input generalizing state seen with
  | nil => cases hread
  | cons byte input ih =>
    rw [readTextBytes] at hread
    split at hread
    · cases hread
      simp
    · exact Nat.lt_succ_of_lt (ih hread)
    · cases hread

theorem length_readText {input rest : Bytes} {text : String}
    (hread : readText input = .ok (text, rest)) : rest.length < input.length := by
  rw [readText] at hread
  split at hread
  · cases hread
  · split at hread
    · cases hread
      exact length_readTextBytes (by assumption)
    · cases hread

theorem length_skipTextFrom {state : SkipState} {input rest : Bytes} {u : Unit}
    (hskip : skipTextFrom state input = .ok (u, rest)) : rest.length < input.length := by
  induction input generalizing state with
  | nil => cases state <;> cases hskip
  | cons byte input ih =>
    cases state <;> unfold skipTextFrom at hskip <;> grind

theorem length_skipText {input rest : Bytes} {u : Unit}
    (hskip : skipText input = .ok (u, rest)) : rest.length < input.length :=
  length_skipTextFrom hskip

end ContentVault.Json
