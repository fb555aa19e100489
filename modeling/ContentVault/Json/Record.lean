import ContentVault.Json.Value

/-!
# Records in JSON

Formats with fixed fields are read member by member, and a member of the wrong
kind is refused where it stands, before anything after it is looked at.  The
members of a record may come in any order, members of other names are passed
over, and a record may also be written as the list of its fields.
-/

namespace ContentVault.Json

/-- What is wrong with a value of another kind than its place calls for: a
scalar is first read to its end. -/
def mismatch (input : Bytes) : JsonFault :=
  match input with
  | [] => .truncated
  | byte :: _ =>
    if byte = openBracket ∨ byte = openBrace then .mismatched
    else match nothingBelow.scalar input with
      | .error fault => fault
      | .ok _ => .mismatched
where
  nothingBelow : Collector String Value := values 0

/-- Reads a natural number below 2^64. -/
def readNatural (input : Bytes) : Except JsonFault (UInt64 × Bytes) :=
  match (values 0).scalar (skipBlanks input) with
  | .ok (.number (some n), rest) => .ok (n, rest)
  | _ => .error (mismatch (skipBlanks input))

def readTextValue (input : Bytes) : Except JsonFault (String × Bytes) :=
  match (values 0).scalar (skipBlanks input) with
  | .ok (.text text, rest) => .ok (text, rest)
  | _ => .error (mismatch (skipBlanks input))

def skipValue (input : Bytes) : Except JsonFault Bytes :=
  match nothing.value [] input with
  | .error fault => .error fault
  | .ok (_, rest) => .ok rest

/-- Looks for the next member of an object: `true` with what follows the opening
quote of its key, or `false` with what follows the object. -/
def nextMember (first : Bool) (input : Bytes) : Except JsonFault (Bool × Bytes) :=
  match nextByte? input with
  | none => .error .truncated
  | some (byte, rest) =>
    if byte = closeBrace then .ok (false, rest)
    else if first then
      if byte = quoteMark then .ok (true, rest) else .error .malformed
    else if byte = comma then
      match nextByte? rest with
      | none => .error .truncated
      | some (byte, rest) => if byte = quoteMark then .ok (true, rest) else .error .malformed
    else .error .malformed

/-- Looks for the next item of a list: `true` if one begins in the input that is
returned, or `false` with what follows the list. -/
def nextItem (first : Bool) (input : Bytes) : Except JsonFault (Bool × Bytes) :=
  match nextByte? input with
  | none => .error .truncated
  | some (byte, rest) =>
    if byte = closeBracket then .ok (false, rest)
    else if first then .ok (true, input)
    else if byte = comma then
      match nextByte? rest with
      | none => .error .truncated
      | some (byte, _) => if byte = closeBracket then .error .malformed else .ok (true, rest)
    else .error .malformed

def closeList (input : Bytes) : Except JsonFault Bytes :=
  match nextByte? input with
  | none => .error .truncated
  | some (byte, rest) => if byte = closeBracket then .ok rest else .error .malformed

def readItem {α : Type} (read : Bytes → Except JsonFault (α × Bytes)) (first : Bool)
    (input : Bytes) : Except JsonFault (α × Bytes) :=
  match nextItem first input with
  | .error fault => .error fault
  | .ok (false, _) => .error .mismatched
  | .ok (true, rest) => read rest

/-- How the members of an object are taken into a state: `read` goes on after a
key, at its colon. -/
structure MemberReader (State : Type) where
  read : State → String → Bytes → Except JsonFault (State × Bytes)
  length_read : ∀ {state key input state' rest}, read state key input = .ok (state', rest) →
    rest.length ≤ input.length

theorem length_readNatural {input rest : Bytes} {n : UInt64}
    (hread : readNatural input = .ok (n, rest)) : rest.length < input.length := by
  have hlength := (List.dropWhile_sublist (l := input) isBlank).length_le
  rw [readNatural, skipBlanks] at hread
  split at hread
  · cases hread
    exact Nat.lt_of_lt_of_le (Collector.length_scalar (by assumption)) hlength
  · cases hread

theorem length_skipValue {input rest : Bytes} (hskip : skipValue input = .ok rest) :
    rest.length < input.length := by
  rw [skipValue] at hskip
  split at hskip
  · cases hskip
  · cases hskip
    exact Collector.length_value (by assumption)

theorem length_nextMember {first more : Bool} {input rest : Bytes}
    (hnext : nextMember first input = .ok (more, rest)) : rest.length < input.length := by
  rw [nextMember] at hnext
  split at hnext
  · cases hnext
  rename_i byte after hinput
  have hlength := length_nextByte? hinput
  split at hnext
  · cases hnext
    exact hlength
  split at hnext
  · split at hnext
    · cases hnext
      exact hlength
    · cases hnext
  split at hnext
  · split at hnext
    · cases hnext
    · rename_i hafter
      split at hnext
      · cases hnext
        exact Nat.lt_trans (length_nextByte? hafter) hlength
      · cases hnext
  · cases hnext

set_option linter.unusedVariables false in
/-- Takes the members of an object into the state, after its opening brace. -/
def MemberReader.members {State : Type} (M : MemberReader State) (state : State) (first : Bool)
    (input : Bytes) : Except JsonFault (State × Bytes) :=
  match hnext : nextMember first input with
  | .error fault => .error fault
  | .ok (false, rest) => .ok (state, rest)
  | .ok (true, rest) =>
    match hkey : readText rest with
    | .error fault => .error fault
    | .ok (key, after) =>
      match hread : M.read state key after with
      | .error fault => .error fault
      | .ok (state, after) => M.members state false after
termination_by input.length
decreasing_by
  have h1 := length_nextMember hnext
  have h2 := length_readText hkey
  have h3 := M.length_read hread
  omega

theorem length_nextItem {first more : Bool} {input rest : Bytes}
    (hnext : nextItem first input = .ok (more, rest)) : rest.length ≤ input.length := by
  rw [nextItem] at hnext
  split at hnext
  · cases hnext
  rename_i byte after hinput
  have hlength := length_nextByte? hinput
  split at hnext
  · cases hnext
    omega
  split at hnext
  · cases hnext
    exact Nat.le_refl _
  split at hnext
  · split at hnext
    · cases hnext
    · split at hnext
      · cases hnext
      · cases hnext
        omega
  · cases hnext

set_option linter.unusedVariables false in
/-- Reads the remaining items of a list; at most `room` lists and objects may be
open at once in each. -/
def readValues (room : Nat) (first : Bool) (input : Bytes) :
    Except JsonFault (List Value × Bytes) :=
  match hnext : nextItem first input with
  | .error fault => .error fault
  | .ok (false, rest) => .ok ([], rest)
  | .ok (true, rest) =>
    match hvalue : (values room).value [] rest with
    | .error fault => .error fault
    | .ok (item, after) =>
      match readValues room false after with
      | .error fault => .error fault
      | .ok (items, after) => .ok (item :: items, after)
termination_by input.length
decreasing_by
  have h1 := length_nextItem hnext
  have h2 := Collector.length_value hvalue
  omega

theorem length_readTextValue {input rest : Bytes} {text : String}
    (hread : readTextValue input = .ok (text, rest)) : rest.length < input.length := by
  have hlength := (List.dropWhile_sublist (l := input) isBlank).length_le
  rw [readTextValue, skipBlanks] at hread
  split at hread
  · cases hread
    exact Nat.lt_of_lt_of_le (Collector.length_scalar (by assumption)) hlength
  · cases hread

theorem length_readValues {room : Nat} {first : Bool} {input rest : Bytes} {items : List Value}
    (hread : readValues room first input = .ok (items, rest)) : rest.length ≤ input.length := by
  fun_induction readValues room first input generalizing items rest with
  | case1 => cases hread
  | case2 first input rest' hnext =>
    cases hread
    exact length_nextItem hnext
  | case3 => cases hread
  | case4 => cases hread
  | case5 first input rest' hnext item after hvalue items' after' hrest ih =>
    cases hread
    have h1 := length_nextItem hnext
    have h2 := Collector.length_value hvalue
    have h3 := ih hrest
    omega

theorem MemberReader.length_members {State : Type} {M : MemberReader State}
    {state state' : State} {first : Bool} {input rest : Bytes}
    (hread : M.members state first input = .ok (state', rest)) :
    rest.length ≤ input.length := by
  fun_induction MemberReader.members M state first input with
  | case1 => cases hread
  | case2 state first input rest' hnext =>
    cases hread
    exact Nat.le_of_lt (length_nextMember hnext)
  | case3 => cases hread
  | case4 => cases hread
  | case5 state first input rest' hnext key after hkey state'' after' hmember ih =>
    have h1 := length_nextMember hnext
    have h2 := length_readText hkey
    have h3 := M.length_read hmember
    have h4 := ih hread
    omega

def readDocument {α : Type} (read : Bytes → Except JsonFault (α × Bytes)) (input : Bytes) :
    Except JsonFault α :=
  match read input with
  | .error fault => .error fault
  | .ok (value, rest) => if (skipBlanks rest).isEmpty then .ok value else .error .malformed

/-- The only value under a key: an error if there are several. -/
def member? (members : List (String × Value)) (key : String) :
    Except JsonFault (Option Value) :=
  match members.filter fun member => member.1 = key with
  | [] => .ok none
  | [member] => .ok (some member.2)
  | _ => .error .mismatched

def Value.toText : Value → Except JsonFault String
  | .text content => .ok content
  | _ => .error .mismatched

end ContentVault.Json
