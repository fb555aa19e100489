import ContentVault.Json.Number
import ContentVault.Json.Text

/-!
# Values in JSON

One reader goes through a value from left to right and keeps the open lists and
objects on a stack.  What it makes of the parts is up to a collector: `values`
keeps them, `nothing` only checks that they are well-formed.
-/

namespace ContentVault.Json

/-- A value, as far as the formats of this library look into one. -/
inductive Value where
  | null
  | bool (value : Bool)
  /-- A number, with its value if it is natural and below 2^64. -/
  | number (natural : Option UInt64)
  | text (text : String)
  | list (items : List Value)
  | object (members : List (String × Value))

def isBlank (byte : UInt8) : Bool :=
  byte = 0x20 || byte = 0x0a || byte = 0x09 || byte = 0x0d

def skipBlanks (input : Bytes) : Bytes :=
  input.dropWhile isBlank

def nextByte? (input : Bytes) : Option (UInt8 × Bytes) :=
  match skipBlanks input with
  | [] => none
  | byte :: rest => some (byte, rest)

theorem length_nextByte? {input rest : Bytes} {byte : UInt8}
    (hnext : nextByte? input = some (byte, rest)) : rest.length < input.length := by
  have hlength := (List.dropWhile_sublist (l := input) isBlank).length_le
  rw [nextByte?, skipBlanks] at hnext
  split at hnext
  · cases hnext
  · rename_i hinput
    cases hnext
    rw [hinput, List.length_cons] at hlength
    omega

def openBracket : UInt8 := 0x5b
def closeBracket : UInt8 := 0x5d
def openBrace : UInt8 := 0x7b
def closeBrace : UInt8 := 0x7d
def comma : UInt8 := 0x2c
def colon : UInt8 := 0x3a

def readWord : Bytes → Bytes → Except JsonFault Bytes
  | [], input => .ok input
  | _ :: _, [] => .error .truncated
  | letter :: word, byte :: rest =>
    if byte = letter then readWord word rest else .error .malformed

theorem length_readWord {word input rest : Bytes} (hread : readWord word input = .ok rest) :
    rest.length ≤ input.length := by
  induction word generalizing input with
  | nil =>
    cases hread
    exact Nat.le_refl _
  | cons letter word ih =>
    cases input with
    | nil => cases hread
    | cons byte input =>
      rw [readWord] at hread
      split at hread
      · exact Nat.le_succ_of_le (ih hread)
      · cases hread

/-- What a reader makes of the parts of a value. -/
structure Collector (Key Val : Type) where
  null : Val
  bool : Bool → Val
  text : Key → Val
  list : List Val → Val
  object : List (Key × Val) → Val
  /-- Reads a text after its opening quote. -/
  readText : Bytes → Except JsonFault (Key × Bytes)
  readNumber : Bytes → Except JsonFault (Val × Bytes)
  /-- How many lists and objects may be open at once, if there is a limit. -/
  room : Option Nat
  length_readText : ∀ {input key rest}, readText input = .ok (key, rest) →
    rest.length < input.length
  length_readNumber : ∀ {input value rest}, readNumber input = .ok (value, rest) →
    rest.length < input.length

/-- A list or an object whose end has not been read; its parts stand in reverse.
An object is open at the value of its last key. -/
inductive Frame (Key Val : Type) where
  | list (items : List Val)
  | object (members : List (Key × Val)) (key : Key)

namespace Collector

variable {Key Val : Type}

def afterWord (word : Bytes) (value : Val) (input : Bytes) : Except JsonFault (Val × Bytes) :=
  match readWord word input with
  | .error fault => .error fault
  | .ok rest => .ok (value, rest)

theorem length_afterWord {word input rest : Bytes} {written value : Val}
    (hread : afterWord word written input = .ok (value, rest)) :
    rest.length ≤ input.length := by
  rw [afterWord] at hread
  split at hread
  · cases hread
  · cases hread
    exact length_readWord (by assumption)

/-- Reads a value that is neither a list nor an object. -/
def scalar (C : Collector Key Val) : Bytes → Except JsonFault (Val × Bytes)
  | [] => .error .truncated
  | byte :: rest =>
    if byte = 0x6e then afterWord [0x75, 0x6c, 0x6c] C.null rest
    else if byte = 0x74 then afterWord [0x72, 0x75, 0x65] (C.bool true) rest
    else if byte = 0x66 then afterWord [0x61, 0x6c, 0x73, 0x65] (C.bool false) rest
    else if byte = quoteMark then
      match C.readText rest with
      | .error fault => .error fault
      | .ok (key, rest) => .ok (C.text key, rest)
    else if byte = 0x2d ∨ Decimal.isDigit byte then C.readNumber (byte :: rest)
    else .error .malformed

theorem length_scalar {C : Collector Key Val} {input rest : Bytes} {value : Val}
    (hread : C.scalar input = .ok (value, rest)) : rest.length < input.length := by
  cases input with
  | nil => cases hread
  | cons byte input =>
    simp only [scalar] at hread
    split at hread
    · exact Nat.lt_succ_of_le (length_afterWord hread)
    split at hread
    · exact Nat.lt_succ_of_le (length_afterWord hread)
    split at hread
    · exact Nat.lt_succ_of_le (length_afterWord hread)
    split at hread
    · split at hread
      · cases hread
      · cases hread
        exact Nat.lt_succ_of_lt (C.length_readText (by assumption))
    split at hread
    · exact C.length_readNumber hread
    · cases hread

def isFull (C : Collector Key Val) (stack : List (Frame Key Val)) : Bool :=
  match C.room with
  | some room => room ≤ stack.length
  | none => false

def readColon (input : Bytes) : Except JsonFault Bytes :=
  match nextByte? input with
  | none => .error .truncated
  | some (byte, rest) => if byte = colon then .ok rest else .error .malformed

theorem length_readColon {input rest : Bytes} (hread : readColon input = .ok rest) :
    rest.length < input.length := by
  rw [readColon] at hread
  split at hread
  · cases hread
  · split at hread
    · cases hread
      exact length_nextByte? (by assumption)
    · cases hread

set_option linter.unusedVariables false in
mutual

/-- Reads a value, and then whatever the open lists and objects still call for. -/
def value (C : Collector Key Val) (stack : List (Frame Key Val)) (input : Bytes) :
    Except JsonFault (Val × Bytes) :=
  match hinput : nextByte? input with
  | none => .error .truncated
  | some (byte, rest) =>
    if byte = openBracket then
      if C.isFull stack then .error .malformed
      else match hrest : nextByte? rest with
        | none => .error .truncated
        | some (next, after) =>
          if next = closeBracket then C.resume (C.list []) stack after
          else C.value (.list [] :: stack) rest
    else if byte = openBrace then
      if C.isFull stack then .error .malformed
      else match hrest : nextByte? rest with
        | none => .error .truncated
        | some (next, after) =>
          if next = closeBrace then C.resume (C.object []) stack after
          else C.member [] stack rest
    else match hscalar : C.scalar (byte :: rest) with
      | .error fault => .error fault
      | .ok (scalar, after) => C.resume scalar stack after
termination_by input.length
decreasing_by
  · exact Nat.lt_trans (length_nextByte? hrest) (length_nextByte? hinput)
  · exact length_nextByte? hinput
  · exact Nat.lt_trans (length_nextByte? hrest) (length_nextByte? hinput)
  · exact length_nextByte? hinput
  · have h1 := length_nextByte? hinput
    have h2 := length_scalar hscalar
    rw [List.length_cons] at h2
    omega

/-- Reads a key, its colon and what follows; `members` came before in the object. -/
def member (C : Collector Key Val) (members : List (Key × Val)) (stack : List (Frame Key Val))
    (input : Bytes) : Except JsonFault (Val × Bytes) :=
  match hinput : nextByte? input with
  | none => .error .truncated
  | some (byte, rest) =>
    if byte = quoteMark then
      match hkey : C.readText rest with
      | .error fault => .error fault
      | .ok (key, after) =>
        match hcolon : readColon after with
        | .error fault => .error fault
        | .ok after => C.value (.object members key :: stack) after
    else .error .malformed
termination_by input.length
decreasing_by
  have h1 := length_nextByte? hinput
  have h2 := C.length_readText hkey
  have h3 := length_readColon hcolon
  omega

/-- A value is complete: puts it where it belongs and reads on. -/
def resume (C : Collector Key Val) (done : Val) (stack : List (Frame Key Val)) (input : Bytes) :
    Except JsonFault (Val × Bytes) :=
  match stack with
  | [] => .ok (done, input)
  | .list items :: stack =>
    match hinput : nextByte? input with
    | none => .error .truncated
    | some (byte, rest) =>
      if byte = comma then C.value (.list (done :: items) :: stack) rest
      else if byte = closeBracket then C.resume (C.list (done :: items).reverse) stack rest
      else .error .malformed
  | .object members key :: stack =>
    match hinput : nextByte? input with
    | none => .error .truncated
    | some (byte, rest) =>
      if byte = comma then C.member ((key, done) :: members) stack rest
      else if byte = closeBrace then
        C.resume (C.object ((key, done) :: members).reverse) stack rest
      else .error .malformed
termination_by input.length
decreasing_by
  all_goals exact length_nextByte? hinput

end

/-- What a reader leaves is no longer than what it was given. -/
theorem length_rest {Key Val : Type} (C : Collector Key Val) (n : Nat) :
    (∀ stack input result rest, input.length = n →
      C.value stack input = .ok (result, rest) → rest.length < n) ∧
    (∀ members stack input result rest, input.length = n →
      C.member members stack input = .ok (result, rest) → rest.length < n) ∧
    (∀ done stack input result rest, input.length = n →
      C.resume done stack input = .ok (result, rest) → rest.length ≤ n) := by
  induction n using Nat.strongRecOn with
  | _ n ih =>
    refine ⟨?_, ?_, ?_⟩
    · intro stack input result rest hn hread
      rw [Collector.value] at hread
      split at hread
      · cases hread
      rename_i byte after hinput
      have hafter := length_nextByte? hinput
      split at hread
      · split at hread
        · cases hread
        split at hread
        · cases hread
        rename_i next last hlast
        have hlast := length_nextByte? hlast
        split at hread
        · have := (ih last.length (by omega)).2.2 _ _ _ _ _ rfl hread
          omega
        · have := (ih after.length (by omega)).1 _ _ _ _ rfl hread
          omega
      split at hread
      · split at hread
        · cases hread
        split at hread
        · cases hread
        rename_i next last hlast
        have hlast := length_nextByte? hlast
        split at hread
        · have := (ih last.length (by omega)).2.2 _ _ _ _ _ rfl hread
          omega
        · have := (ih after.length (by omega)).2.1 _ _ _ _ _ rfl hread
          omega
      split at hread
      · cases hread
      rename_i last hscalar
      have hlast := length_scalar hscalar
      rw [List.length_cons] at hlast
      have := (ih last.length (by omega)).2.2 _ _ _ _ _ rfl hread
      omega
    · intro members stack input result rest hn hread
      rw [Collector.member] at hread
      split at hread
      · cases hread
      rename_i byte after hinput
      have hafter := length_nextByte? hinput
      split at hread
      · split at hread
        · cases hread
        rename_i hkey
        have hkey := C.length_readText hkey
        split at hread
        · cases hread
        rename_i last hcolon
        have hcolon := length_readColon hcolon
        have := (ih last.length (by omega)).1 _ _ _ _ rfl hread
        omega
      · cases hread
    · intro done stack input result rest hn hread
      rw [Collector.resume.eq_def] at hread
      split at hread
      · cases hread
        omega
      · split at hread
        · cases hread
        rename_i byte after hinput
        have hafter := length_nextByte? hinput
        split at hread
        · have := (ih after.length (by omega)).1 _ _ _ _ rfl hread
          omega
        split at hread
        · have := (ih after.length (by omega)).2.2 _ _ _ _ _ rfl hread
          omega
        · cases hread
      · split at hread
        · cases hread
        rename_i byte after hinput
        have hafter := length_nextByte? hinput
        split at hread
        · have := (ih after.length (by omega)).2.1 _ _ _ _ _ rfl hread
          omega
        split at hread
        · have := (ih after.length (by omega)).2.2 _ _ _ _ _ rfl hread
          omega
        · cases hread

theorem length_value {Key Val : Type} {C : Collector Key Val} {stack : List (Frame Key Val)}
    {input rest : Bytes} {result : Val} (hread : C.value stack input = .ok (result, rest)) :
    rest.length < input.length :=
  (C.length_rest input.length).1 _ _ _ _ rfl hread

end Collector

/-- Keeps everything; at most `room` lists and objects may be open at once. -/
def values (room : Nat) : Collector String Value where
  null := .null
  bool := .bool
  text := .text
  list := .list
  object := .object
  readText := readText
  readNumber input :=
    match readNumber input with
    | .error fault => .error fault
    | .ok (natural, rest) => .ok (.number natural, rest)
  room := some room
  length_readText := length_readText
  length_readNumber := by
    intro input value rest hread
    split at hread
    · cases hread
    · cases hread
      exact length_readNumber (by assumption)

/-- Keeps nothing, at any depth. -/
def nothing : Collector Unit Unit where
  null := ()
  bool _ := ()
  text _ := ()
  list _ := ()
  object _ := ()
  readText := skipText
  readNumber := skipNumber
  room := none
  length_readText := length_skipText
  length_readNumber := length_skipNumber

end ContentVault.Json
