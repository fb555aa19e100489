import ContentVault.Json.Record
import ContentVault.Proofs.JsonNumbers
import ContentVault.Proofs.JsonTexts
import Mathlib.Data.List.TakeWhile

/-!
# Values in JSON

The grammar of values, with blanks between all parts.  Whatever a value is spelled by, the reader
that goes through it with a stack makes of it what its collector makes of the value, as long as
the lists and objects that are open at once find room.
-/

namespace ContentVault.Json

/-! ### The grammar -/

/-- Blanks apart, the input starts with the byte, and goes on with the rest. -/
def Starts (byte : UInt8) (input rest : Bytes) : Prop :=
  ∃ blanks : Bytes, (∀ blank ∈ blanks, isBlank blank = true) ∧ input = blanks ++ byte :: rest

inductive Part where
  | value (value : Value)
  /-- What follows an item of a list: more items, and the end of the list. -/
  | items (items : List Value)
  | member (key : String) (value : Value)
  /-- What follows a member of an object: more members, and the end of the object. -/
  | members (members : List (String × Value))

/-- The input begins with this part, in which no more than so many lists and objects are open at
once, and goes on with the rest.  `Fits` tells which numbers may occur. -/
inductive Begins (Fits : NumberText → Prop) : Nat → Part → Bytes → Bytes → Prop where
  | nullWord {depth : Nat} {input rest : Bytes}
      (hword : Starts 0x6e input (0x75 :: 0x6c :: 0x6c :: rest)) :
      Begins Fits depth (.value .null) input rest
  | trueWord {depth : Nat} {input rest : Bytes}
      (hword : Starts 0x74 input (0x72 :: 0x75 :: 0x65 :: rest)) :
      Begins Fits depth (.value (.bool true)) input rest
  | falseWord {depth : Nat} {input rest : Bytes}
      (hword : Starts 0x66 input (0x61 :: 0x6c :: 0x73 :: 0x65 :: rest)) :
      Begins Fits depth (.value (.bool false)) input rest
  | number {depth : Nat} {number : NumberText} {byte : UInt8} {more input rest : Bytes}
      (hstarts : Starts byte input (more ++ rest)) (hspells : SpellsNumber number (byte :: more))
      (hfits : Fits number) (hends : EndsNumber rest) :
      Begins Fits depth (.value (.number number.natural?)) input rest
  | text {depth : Nat} {chars : List Char} {input middle rest : Bytes}
      (hquote : Starts quoteMark input middle) (htext : BeginsText chars middle rest) :
      Begins Fits depth (.value (.text (String.ofList chars))) input rest
  | emptyList {depth : Nat} {input middle rest : Bytes} (hopen : Starts openBracket input middle)
      (hclose : Starts closeBracket middle rest) :
      Begins Fits (depth + 1) (.value (.list [])) input rest
  | list {depth : Nat} {item : Value} {items : List Value} {input middle after rest : Bytes}
      (hopen : Starts openBracket input middle) (hitem : Begins Fits depth (.value item) middle after)
      (hitems : Begins Fits depth (.items items) after rest) :
      Begins Fits (depth + 1) (.value (.list (item :: items))) input rest
  | emptyObject {depth : Nat} {input middle rest : Bytes} (hopen : Starts openBrace input middle)
      (hclose : Starts closeBrace middle rest) :
      Begins Fits (depth + 1) (.value (.object [])) input rest
  | object {depth : Nat} {key : String} {value : Value} {members : List (String × Value)}
      {input middle after rest : Bytes} (hopen : Starts openBrace input middle)
      (hmember : Begins Fits depth (.member key value) middle after)
      (hmembers : Begins Fits depth (.members members) after rest) :
      Begins Fits (depth + 1) (.value (.object ((key, value) :: members))) input rest
  | lastItem {depth : Nat} {input rest : Bytes} (hclose : Starts closeBracket input rest) :
      Begins Fits depth (.items []) input rest
  | nextItem {depth : Nat} {item : Value} {items : List Value} {input middle after rest : Bytes}
      (hcomma : Starts comma input middle) (hitem : Begins Fits depth (.value item) middle after)
      (hitems : Begins Fits depth (.items items) after rest) :
      Begins Fits depth (.items (item :: items)) input rest
  | member {depth : Nat} {chars : List Char} {value : Value} {input middle after behind rest : Bytes}
      (hquote : Starts quoteMark input middle) (hkey : BeginsText chars middle after)
      (hcolon : Starts colon after behind) (hvalue : Begins Fits depth (.value value) behind rest) :
      Begins Fits depth (.member (String.ofList chars) value) input rest
  | lastMember {depth : Nat} {input rest : Bytes} (hclose : Starts closeBrace input rest) :
      Begins Fits depth (.members []) input rest
  | nextMember {depth : Nat} {key : String} {value : Value} {members : List (String × Value)}
      {input middle after rest : Bytes} (hcomma : Starts comma input middle)
      (hmember : Begins Fits depth (.member key value) middle after)
      (hmembers : Begins Fits depth (.members members) after rest) :
      Begins Fits depth (.members ((key, value) :: members)) input rest

/-! ### Single bytes -/

section Bytes

variable {byte : UInt8} {input rest : Bytes}

theorem starts_cons (byte : UInt8) (rest : Bytes) : Starts byte (byte :: rest) rest :=
  ⟨[], fun _ hmem => absurd hmem List.not_mem_nil, rfl⟩

theorem Starts.skipBlanks (hstarts : Starts byte input rest) (hbyte : isBlank byte = false) :
    skipBlanks input = byte :: rest := by
  obtain ⟨blanks, hblanks, rfl⟩ := hstarts
  rw [Json.skipBlanks, List.dropWhile_append_of_pos hblanks, List.dropWhile_cons_of_neg]
  rw [hbyte]
  decide

theorem Starts.nextByte? (hstarts : Starts byte input rest) (hbyte : isBlank byte = false) :
    nextByte? input = some (byte, rest) := by
  rw [Json.nextByte?, hstarts.skipBlanks hbyte]

theorem Starts.readColon (hstarts : Starts colon input rest) :
    Collector.readColon input = .ok rest := by
  rw [Collector.readColon, hstarts.nextByte? (by decide)]
  exact if_pos rfl

end Bytes

theorem SpellsNumber.isBlank_head {number : NumberText} {byte : UInt8} {more : Bytes}
    (hspells : SpellsNumber number (byte :: more)) : isBlank byte = false := by
  have hne {blank : UInt8} (hblank : blank ≠ 0x2d ∧ Decimal.isDigit blank = false) : byte ≠ blank :=
    hspells.head_ne hblank.1 hblank.2
  simp only [isBlank, Bool.or_eq_false_iff, decide_eq_false_iff_not]
  exact ⟨⟨⟨hne (by decide), hne (by decide)⟩, hne (by decide)⟩, hne (by decide)⟩

theorem SpellsNumber.head_ne_openBracket {number : NumberText} {byte : UInt8} {more : Bytes}
    (hspells : SpellsNumber number (byte :: more)) : byte ≠ openBracket :=
  hspells.head_ne (by decide) (by decide)

theorem SpellsNumber.head_ne_openBrace {number : NumberText} {byte : UInt8} {more : Bytes}
    (hspells : SpellsNumber number (byte :: more)) : byte ≠ openBrace :=
  hspells.head_ne (by decide) (by decide)

/-- The digits of a natural number below 2^64 spell it. -/
theorem begins_natural {Fits : NumberText → Prop} {depth : Nat} {n : UInt64} {rest : Bytes}
    (hfits : ∀ number : NumberText, number.natural? = some n → Fits number)
    (hends : EndsNumber rest) :
    Begins Fits depth (.value (.number (some n))) (Decimal.digits n.toNat ++ rest) rest := by
  have hspells := spells_digits n.toNat
  have hnatural := natural?_digits n
  obtain ⟨byte, more, hdigits⟩ := List.exists_cons_of_ne_nil (Decimal.digits_ne_nil n.toNat)
  rw [hdigits] at hspells hnatural
  rw [hdigits, ← hnatural]
  exact .number (starts_cons _ _) hspells (hfits _ hnatural) hends

/-- A member is its key between quotes, a colon and its value. -/
theorem begins_member {Fits : NumberText → Prop} {depth : Nat} {key : String} {value : Value}
    {input middle rest : Bytes} (hkey : BeginsText key.toList input (colon :: middle))
    (hvalue : Begins Fits depth (.value value) middle rest) :
    Begins Fits depth (.member key value) (quoteMark :: input) rest := by
  rw [← String.ofList_toList (s := key)]
  exact .member (starts_cons _ _) hkey (starts_cons _ _) hvalue

/-! ### The equations of the reader -/

namespace Collector

variable {Key Val : Type} (C : Collector Key Val) (stack : List (Frame Key Val)) (input : Bytes)

/-- What begins like a number is read as one. -/
theorem scalar_of_spells {number : NumberText} {byte : UInt8} {more : Bytes}
    (hspells : SpellsNumber number (byte :: more)) (rest : Bytes) :
    C.scalar (byte :: more ++ rest) = C.readNumber (byte :: more ++ rest) := by
  have hne {letter : UInt8} (hletter : letter ≠ 0x2d ∧ Decimal.isDigit letter = false) :
      byte ≠ letter := hspells.head_ne hletter.1 hletter.2
  have hnull : byte ≠ 0x6e := hne (by decide)
  have htrue : byte ≠ 0x74 := hne (by decide)
  have hfalse : byte ≠ 0x66 := hne (by decide)
  have hquote : byte ≠ quoteMark := hne (by decide)
  simp only [List.cons_append, scalar, if_neg hnull, if_neg htrue, if_neg hfalse, if_neg hquote,
    if_pos hspells.head]

theorem scalar_of_readText {input rest : Bytes} {key : Key}
    (hread : C.readText input = .ok (key, rest)) :
    C.scalar (quoteMark :: input) = .ok (C.text key, rest) := by
  have hquote : ¬quoteMark = 0x6e ∧ ¬quoteMark = 0x74 ∧ ¬quoteMark = 0x66 := by decide
  simp only [scalar, if_neg hquote.1, if_neg hquote.2.1, if_neg hquote.2.2, if_true, hread]

theorem value_eq :
    C.value stack input =
      match nextByte? input with
      | none => .error .truncated
      | some (byte, rest) =>
        if byte = openBracket then
          if C.isFull stack then .error .malformed
          else match nextByte? rest with
            | none => .error .truncated
            | some (next, after) =>
              if next = closeBracket then C.resume (C.list []) stack after
              else C.value (.list [] :: stack) rest
        else if byte = openBrace then
          if C.isFull stack then .error .malformed
          else match nextByte? rest with
            | none => .error .truncated
            | some (next, after) =>
              if next = closeBrace then C.resume (C.object []) stack after
              else C.member [] stack rest
        else match C.scalar (byte :: rest) with
          | .error fault => .error fault
          | .ok (scalar, after) => C.resume scalar stack after := by
  rw [Collector.value]
  split
  · rename_i hnext
    simp only [hnext]
  · rename_i hnext
    simp only [hnext]
    split_ifs <;> first | rfl | (split <;> simp_all)

theorem member_eq (members : List (Key × Val)) :
    C.member members stack input =
      match nextByte? input with
      | none => .error .truncated
      | some (byte, rest) =>
        if byte = quoteMark then
          match C.readText rest with
          | .error fault => .error fault
          | .ok (key, after) =>
            match readColon after with
            | .error fault => .error fault
            | .ok after => C.value (.object members key :: stack) after
        else .error .malformed := by
  rw [Collector.member]
  split
  · rename_i hnext
    simp only [hnext]
  · rename_i hnext
    simp only [hnext]
    split_ifs
    · split
      · simp_all
      · split <;> simp_all
    · rfl

theorem resume_list_eq (done : Val) (items : List Val) :
    C.resume done (.list items :: stack) input =
      match nextByte? input with
      | none => .error .truncated
      | some (byte, rest) =>
        if byte = comma then C.value (.list (done :: items) :: stack) rest
        else if byte = closeBracket then C.resume (C.list (done :: items).reverse) stack rest
        else .error .malformed := by
  rw [Collector.resume]
  split <;> simp_all

theorem resume_object_eq (done : Val) (members : List (Key × Val)) (key : Key) :
    C.resume done (.object members key :: stack) input =
      match nextByte? input with
      | none => .error .truncated
      | some (byte, rest) =>
        if byte = comma then C.member ((key, done) :: members) stack rest
        else if byte = closeBrace then
          C.resume (C.object ((key, done) :: members).reverse) stack rest
        else .error .malformed := by
  rw [Collector.resume]
  split <;> simp_all

end Collector

/-! ### Reading -/

variable {Fits : NumberText → Prop} {depth : Nat} {input middle rest : Bytes}

/-- The first byte of a value is none that ends a list. -/
theorem Begins.nextByte?_value {value : Value}
    (hbegins : Begins Fits depth (.value value) input rest) :
    ∃ byte after, nextByte? input = some (byte, after) ∧ byte ≠ closeBracket := by
  have hsome {byte : UInt8} {after : Bytes} (hstarts : Starts byte input after)
      (hbyte : isBlank byte = false ∧ byte ≠ closeBracket) :
      ∃ byte after, nextByte? input = some (byte, after) ∧ byte ≠ closeBracket :=
    ⟨byte, after, hstarts.nextByte? hbyte.1, hbyte.2⟩
  cases hbegins with
  | nullWord hstarts | trueWord hstarts | falseWord hstarts | text hstarts | emptyList hstarts
  | list hstarts | emptyObject hstarts | object hstarts => exact hsome hstarts (by decide)
  | number hstarts hspells =>
    exact hsome hstarts ⟨hspells.isBlank_head, hspells.head_ne (by decide) (by decide)⟩

theorem Begins.nextByte?_member {key : String} {value : Value}
    (hbegins : Begins Fits depth (.member key value) input rest) :
    ∃ after, nextByte? input = some (quoteMark, after) := by
  cases hbegins with
  | member hquote => exact ⟨_, hquote.nextByte? (by decide)⟩

/-- A collector makes of the parts of values what becomes of them by `key` and `val`. -/
structure Collector.Makes {Key Val : Type} (C : Collector Key Val) (Fits : NumberText → Prop)
    (key : String → Key) (val : Value → Val) : Prop where
  null : val .null = C.null
  bool : ∀ value, val (.bool value) = C.bool value
  text : ∀ text, val (.text text) = C.text (key text)
  list : ∀ items, val (.list items) = C.list (items.map val)
  object : ∀ members,
    val (.object members) = C.object (members.map fun member => (key member.1, val member.2))
  readText : ∀ {chars input rest}, BeginsText chars input rest →
    C.readText input = .ok (key (String.ofList chars), rest)
  readNumber : ∀ {number bytes rest}, SpellsNumber number bytes → Fits number → EndsNumber rest →
    C.readNumber (bytes ++ rest) = .ok (val (.number number.natural?), rest)

/-- The numbers that do not exceed the range of a double. -/
def InRange (number : NumberText) : Prop :=
  number.overflows = false

/-- Everything is kept as it is, if the numbers are in range. -/
theorem makes_values (room : Nat) : (values room).Makes InRange id id where
  null := rfl
  bool _ := rfl
  text _ := rfl
  list items := by
    rw [List.map_id]
    rfl
  object members := by
    rw [List.map_id'']
    · rfl
    · exact fun _ => rfl
  readText := readText_of_begins
  readNumber hspells hfits hends := by
    simp only [values, readNumber_of_spells hspells hfits hends, id]

theorem makes_nothing : nothing.Makes Fits (fun _ => ()) (fun _ => ()) where
  null := rfl
  bool _ := rfl
  text _ := rfl
  list _ := rfl
  object _ := rfl
  readText := skipText_of_begins
  readNumber hspells _ hends := skipNumber_of_spells hspells hends

section Reader

variable {Key Val : Type} {C : Collector Key Val} {key : String → Key} {val : Value → Val}

def Collector.HasRoom (C : Collector Key Val) (stack : List (Frame Key Val)) (depth : Nat) : Prop :=
  ∀ room, C.room = some room → stack.length + depth ≤ room

theorem Collector.HasRoom.isFull {stack : List (Frame Key Val)}
    (hroom : C.HasRoom stack (depth + 1)) : C.isFull stack = false := by
  rw [Collector.isFull]
  cases hlimit : C.room with
  | none => rfl
  | some room =>
    have hle := hroom room hlimit
    simp only [decide_eq_false_iff_not]
    omega

theorem Collector.HasRoom.push {stack : List (Frame Key Val)}
    (hroom : C.HasRoom stack (depth + 1)) (frame : Frame Key Val) :
    C.HasRoom (frame :: stack) depth := by
  intro room hlimit
  have hle := hroom room hlimit
  rw [List.length_cons]
  omega

theorem Collector.HasRoom.exchange {stack : List (Frame Key Val)} {frame other : Frame Key Val}
    (hroom : C.HasRoom (frame :: stack) depth) : C.HasRoom (other :: stack) depth :=
  hroom

def Collector.Completes (C : Collector Key Val) (key : String → Key) (val : Value → Val)
    (depth : Nat) : Part → Bytes → Bytes → Prop
  | .value written, input, rest => ∀ stack, C.HasRoom stack depth →
    C.value stack input = C.resume (val written) stack rest
  | .items written, input, rest => ∀ done read stack, C.HasRoom (.list read :: stack) depth →
    C.resume done (.list read :: stack) input =
      C.resume (C.list ((done :: read).reverse ++ written.map val)) stack rest
  | .member name written, input, rest => ∀ read stack,
    C.HasRoom (.object read (key name) :: stack) depth →
      C.member read stack input = C.resume (val written) (.object read (key name) :: stack) rest
  | .members written, input, rest => ∀ done read name stack,
    C.HasRoom (.object read name :: stack) depth →
      C.resume done (.object read name :: stack) input =
        C.resume (C.object (((name, done) :: read).reverse ++
          written.map fun member => (key member.1, val member.2))) stack rest

theorem Begins.completes (hmakes : C.Makes Fits key val) {part : Part}
    (hbegins : Begins Fits depth part input rest) : C.Completes key val depth part input rest := by
  induction hbegins with
  | nullWord hword =>
    intro stack _
    rw [Collector.value_eq, hword.nextByte? (by decide), hmakes.null]
    rfl
  | trueWord hword =>
    intro stack _
    rw [Collector.value_eq, hword.nextByte? (by decide), hmakes.bool]
    rfl
  | falseWord hword =>
    intro stack _
    rw [Collector.value_eq, hword.nextByte? (by decide), hmakes.bool]
    rfl
  | number hstarts hspells hfits hends =>
    intro stack _
    have hread := hmakes.readNumber hspells hfits hends
    rw [Collector.value_eq, hstarts.nextByte? hspells.isBlank_head]
    simp only [if_neg hspells.head_ne_openBracket, if_neg hspells.head_ne_openBrace]
    rw [← List.cons_append, C.scalar_of_spells hspells, hread]
  | text hquote htext =>
    intro stack _
    have hscalar := C.scalar_of_readText (hmakes.readText htext)
    rw [Collector.value_eq, hquote.nextByte? (by decide), hmakes.text]
    simp only [hscalar]
    rfl
  | emptyList hopen hclose =>
    intro stack hroom
    rw [Collector.value_eq, hopen.nextByte? (by decide), hmakes.list]
    simp only [if_true, hroom.isFull, hclose.nextByte? (by decide)]
    rfl
  | list hopen hitem _ ihItem ihItems =>
    intro stack hroom
    obtain ⟨byte, after, hnext, hbyte⟩ := hitem.nextByte?_value
    rw [Collector.value_eq, hopen.nextByte? (by decide), hmakes.list]
    simp only [if_true, hroom.isFull, hnext, if_neg hbyte]
    exact (ihItem _ (hroom.push _)).trans (ihItems _ _ _ (hroom.push _))
  | emptyObject hopen hclose =>
    intro stack hroom
    rw [Collector.value_eq, hopen.nextByte? (by decide), hmakes.object]
    simp only [if_true, hroom.isFull, hclose.nextByte? (by decide)]
    rfl
  | object hopen hmember _ ihMember ihMembers =>
    intro stack hroom
    obtain ⟨after, hnext⟩ := hmember.nextByte?_member
    rw [Collector.value_eq, hopen.nextByte? (by decide), hmakes.object]
    simp only [if_true, hroom.isFull, hnext]
    exact (ihMember _ _ (hroom.push _)).trans (ihMembers _ _ _ _ (hroom.push _))
  | lastItem hclose =>
    intro done read stack _
    rw [Collector.resume_list_eq, hclose.nextByte? (by decide), List.map_nil, List.append_nil]
    rfl
  | nextItem hcomma _ _ ihItem ihItems =>
    intro done read stack hroom
    rw [Collector.resume_list_eq, hcomma.nextByte? (by decide)]
    simp only [if_true]
    rw [ihItem _ hroom.exchange, ihItems _ _ _ hroom.exchange, List.reverse_cons, List.append_assoc,
      List.singleton_append, List.map_cons]
  | member hquote hkey hcolon _ ihValue =>
    intro read stack hroom
    rw [Collector.member_eq, hquote.nextByte? (by decide)]
    simp only [if_true, hmakes.readText hkey, hcolon.readColon]
    exact ihValue _ hroom
  | lastMember hclose =>
    intro done read name stack _
    rw [Collector.resume_object_eq, hclose.nextByte? (by decide), List.map_nil, List.append_nil]
    rfl
  | nextMember hcomma _ _ ihMember ihMembers =>
    intro done read name stack hroom
    rw [Collector.resume_object_eq, hcomma.nextByte? (by decide)]
    simp only [if_true]
    rw [ihMember _ _ hroom.exchange, ihMembers _ _ _ _ hroom.exchange, List.reverse_cons,
      List.append_assoc, List.singleton_append, List.map_cons]

end Reader

/-! ### What formats read -/

section Formats

theorem value_of_begins {room : Nat} {value : Value} (hroom : depth ≤ room)
    (hbegins : Begins InRange depth (.value value) input rest) :
    (values room).value [] input = .ok (value, rest) := by
  have hread := hbegins.completes (makes_values room) [] fun limit hlimit => by
    cases hlimit
    rwa [List.length_nil, Nat.zero_add]
  rw [hread, Collector.resume]
  rfl

/-- Any value is passed over. -/
theorem skipValue_of_begins {value : Value}
    (hbegins : Begins Fits depth (.value value) input rest) :
    skipValue input = .ok rest := by
  have hread := hbegins.completes makes_nothing [] fun _ hlimit => by cases hlimit
  rw [skipValue, hread, Collector.resume]

theorem readNatural_of_begins {n : UInt64}
    (hbegins : Begins Fits depth (.value (.number (some n))) input rest) :
    readNatural input = .ok (n, rest) := by
  generalize hpart : Part.value (.number (some n)) = part at hbegins
  cases hbegins with
  | number hstarts hspells hfits hends =>
    injection hpart with hvalue
    injection hvalue with hnatural
    have hread := readNumber_of_spells hspells (overflows_of_natural? hnatural.symm) hends
    have hscalar := (values 0).scalar_of_spells hspells rest
    rw [readNatural, hstarts.skipBlanks hspells.isBlank_head, ← List.cons_append, hscalar]
    simp only [values, hread, ← hnatural]
  | _ => cases hpart

theorem readTextValue_of_begins {text : String}
    (hbegins : Begins Fits depth (.value (.text text)) input rest) :
    readTextValue input = .ok (text, rest) := by
  cases hbegins with
  | text hquote htext =>
    have hscalar := (values 0).scalar_of_readText (readText_of_begins htext)
    rw [readTextValue, hquote.skipBlanks (by decide), hscalar]
    rfl

/-- A document is what is read, with nothing but blanks behind it. -/
theorem readDocument_of_read {α : Type} {read : Bytes → Except JsonFault (α × Bytes)} {result : α}
    (hread : read input = .ok (result, rest)) (hblank : ∀ byte ∈ rest, isBlank byte = true) :
    readDocument read input = .ok result := by
  have hnothing : skipBlanks rest = [] := List.dropWhile_eq_nil_iff.2 hblank
  simp only [readDocument, hread, hnothing]
  rfl

/-! ### Lists item by item -/

theorem nextItem_of_comma {value : Value} (hcomma : Starts comma input middle)
    (hbegins : Begins Fits depth (.value value) middle rest) :
    nextItem false input = .ok (true, middle) := by
  obtain ⟨byte, after, hnext, hbyte⟩ := hbegins.nextByte?_value
  have hne : ¬comma = closeBracket := by decide
  simp [nextItem, hcomma.nextByte? (by decide), hne, hnext, hbyte]

section Items

variable {α : Type} {read : Bytes → Except JsonFault (α × Bytes)} {result : α} {value : Value}

theorem readItem_first (hbegins : Begins Fits depth (.value value) input rest)
    (hread : read input = .ok (result, rest)) : readItem read true input = .ok (result, rest) := by
  obtain ⟨byte, after, hnext, hbyte⟩ := hbegins.nextByte?_value
  have hitem : nextItem true input = .ok (true, input) := by
    simp only [nextItem, hnext, if_neg hbyte, if_true]
  simp only [readItem, hitem, hread]

theorem readItem_next (hcomma : Starts comma input middle)
    (hbegins : Begins Fits depth (.value value) middle rest)
    (hread : read middle = .ok (result, rest)) : readItem read false input = .ok (result, rest) := by
  simp only [readItem, nextItem_of_comma hcomma hbegins, hread]

end Items

theorem readValues_eq (room : Nat) (first : Bool) (input : Bytes) :
    readValues room first input =
      match nextItem first input with
      | .error fault => .error fault
      | .ok (false, rest) => .ok ([], rest)
      | .ok (true, rest) =>
        match (values room).value [] rest with
        | .error fault => .error fault
        | .ok (item, after) =>
          match readValues room false after with
          | .error fault => .error fault
          | .ok (items, after) => .ok (item :: items, after) := by
  rw [readValues]
  split
  · simp_all
  · simp_all
  · rename_i hnext
    simp only [hnext]
    split
    · simp_all
    · rename_i hvalue
      cases hothers : readValues room false _ <;> simp only [hvalue, hothers]

/-- All further items of a list are kept. -/
theorem readValues_of_begins {room : Nat} (hroom : depth ≤ room) {items : List Value}
    (hbegins : Begins InRange depth (.items items) input rest) :
    readValues room false input = .ok (items, rest) := by
  induction items generalizing input with
  | nil =>
    cases hbegins with
    | lastItem hclose =>
      rw [readValues_eq, nextItem, hclose.nextByte? (by decide)]
      rfl
  | cons item items ih =>
    cases hbegins with
    | nextItem hcomma hitem hitems =>
      rw [readValues_eq]
      simp only [nextItem_of_comma hcomma hitem, value_of_begins hroom hitem, ih hitems]

theorem Starts.closeList (hclose : Starts closeBracket input rest) :
    closeList input = .ok rest := by
  rw [Json.closeList, hclose.nextByte? (by decide)]
  exact if_pos rfl

/-! ### Objects member by member -/

variable {State : Type} {M : MemberReader State} {step : State → String × Value → Option State}

theorem MemberReader.members_eq (M : MemberReader State) (state : State) (first : Bool)
    (input : Bytes) :
    M.members state first input =
      match nextMember first input with
      | .error fault => .error fault
      | .ok (false, rest) => .ok (state, rest)
      | .ok (true, rest) =>
        match readText rest with
        | .error fault => .error fault
        | .ok (key, after) =>
          match M.read state key after with
          | .error fault => .error fault
          | .ok (state, after) => M.members state false after := by
  rw [MemberReader.members]
  split
  · simp_all
  · simp_all
  · rename_i hnext
    simp only [hnext]
    split
    · simp_all
    · split <;> simp_all

/-- After a key, any spelling of the value takes the state a step further. -/
def MemberReader.Takes (M : MemberReader State) (Fits : NumberText → Prop) (depth : Nat)
    (step : State → String × Value → Option State) : Prop :=
  ∀ {state state' : State} {key : String} {value : Value} {input middle rest : Bytes},
    step state (key, value) = some state' → Starts colon input middle →
      Begins Fits depth (.value value) middle rest → M.read state key input = .ok (state', rest)

theorem MemberReader.members_of_member (htakes : M.Takes Fits depth step) {state state' : State}
    {first : Bool} {key : String} {value : Value} {input middle : Bytes}
    (hnext : ∀ after, nextByte? middle = some (quoteMark, after) →
      nextMember first input = .ok (true, after))
    (hmember : Begins Fits depth (.member key value) middle rest)
    (hstep : step state (key, value) = some state') :
    M.members state first input = M.members state' false rest := by
  cases hmember with
  | member hquote hkey hcolon hvalue =>
    rw [M.members_eq, hnext _ (hquote.nextByte? (by decide))]
    simp only [readText_of_begins hkey, htakes hstep hcolon hvalue]

/-- The members of an object take the state step by step. -/
theorem MemberReader.members_of_begins (htakes : M.Takes Fits depth step)
    {members : List (String × Value)} {state state' : State}
    (hbegins : Begins Fits depth (.members members) input rest)
    (hsteps : members.foldlM step state = some state') :
    M.members state false input = .ok (state', rest) := by
  induction members generalizing state input with
  | nil =>
    cases hbegins with
    | lastMember hclose =>
      cases hsteps
      rw [M.members_eq, nextMember, hclose.nextByte? (by decide)]
      rfl
  | cons member members ih =>
    rw [List.foldlM_cons, Option.bind_eq_bind, Option.bind_eq_some_iff] at hsteps
    obtain ⟨next, hstep, hsteps⟩ := hsteps
    cases hbegins with
    | nextMember hcomma hmember hmembers =>
      rw [M.members_of_member htakes (fun after hquote => ?_) hmember hstep]
      · exact ih hmembers hsteps
      · have hne : ¬comma = closeBrace := by decide
        simp [nextMember, hcomma.nextByte? (by decide), hne, hquote]

theorem MemberReader.members_of_object (htakes : M.Takes Fits depth step)
    {members : List (String × Value)} {state state' : State}
    (hbegins : Begins Fits (depth + 1) (.value (.object members)) input rest)
    (hsteps : members.foldlM step state = some state') :
    ∃ middle, nextByte? input = some (openBrace, middle) ∧
      M.members state true middle = .ok (state', rest) := by
  cases hbegins with
  | emptyObject hopen hclose =>
    cases hsteps
    refine ⟨_, hopen.nextByte? (by decide), ?_⟩
    rw [M.members_eq, nextMember, hclose.nextByte? (by decide)]
    rfl
  | object hopen hmember hmembers =>
    rw [List.foldlM_cons, Option.bind_eq_bind, Option.bind_eq_some_iff] at hsteps
    obtain ⟨next, hstep, hsteps⟩ := hsteps
    refine ⟨_, hopen.nextByte? (by decide), ?_⟩
    rw [M.members_of_member htakes (fun after hquote => ?_) hmember hstep]
    · exact M.members_of_begins htakes hmembers hsteps
    · have hne : ¬quoteMark = closeBrace := by decide
      simp [nextMember, hne, hquote]

end Formats

end ContentVault.Json
