import ContentVault.Json.Text
import ContentVault.Proofs.TextBytes
import Mathlib.Data.List.Basic

/-!
# Texts in JSON

Every character of a text can be written in several ways.  Whichever are chosen, the text is read
from them, and it can be passed over.  A written text is one of these spellings.
-/

namespace ContentVault.Json

/-! ### Spellings -/

/-- The bytes that stand for a character between quotes: the character itself, the letter of an
escape, the four digits of its number, or those of a pair of 16-bit units. -/
inductive SpellsChar : Char → Bytes → Prop where
  | plain {c : Char} (hquote : c ≠ '"') (hslash : c ≠ '\\') (hcontrol : 0x20 ≤ c.toNat) :
      SpellsChar c (String.utf8EncodeChar c)
  | letter {c : Char} {letter byte : UInt8} (hletter : escapedByte? letter = some byte)
      (hchar : String.utf8EncodeChar c = [byte]) : SpellsChar c [backslash, letter]
  | unit {c : Char} {digits : Bytes} (hlength : digits.length = 4)
      (hdigits : hexNumber? digits = some c.toNat) : SpellsChar c (backslash :: 0x75 :: digits)
  | pair {c : Char} {digits digits' : Bytes} {high low : Nat} (hlength : digits.length = 4)
      (hlength' : digits'.length = 4) (hdigits : hexNumber? digits = some high)
      (hdigits' : hexNumber? digits' = some low) (hhigh : 0xd800 ≤ high ∧ high ≤ 0xdbff)
      (hlow : 0xdc00 ≤ low ∧ low ≤ 0xdfff)
      (hchar : c.toNat = 0x10000 + (high - 0xd800) * 0x400 + (low - 0xdc00)) :
      SpellsChar c (backslash :: 0x75 :: (digits ++ backslash :: 0x75 :: digits'))

/-- After an opening quote the input begins with these characters and the closing quote, and goes
on with the rest. -/
inductive BeginsText : List Char → Bytes → Bytes → Prop where
  | close (rest : Bytes) : BeginsText [] (quoteMark :: rest) rest
  | char {c : Char} {chars : List Char} {bytes input rest : Bytes} (hchar : SpellsChar c bytes)
      (htext : BeginsText chars input rest) : BeginsText (c :: chars) (bytes ++ input) rest

variable {c : Char} {chars : List Char} {bytes digits input rest : Bytes} {n : Nat}

/-! ### Plain bytes -/

structure IsPlainByte (byte : UInt8) : Prop where
  ne_quoteMark : byte ≠ quoteMark
  ne_backslash : byte ≠ backslash
  not_control : ¬byte < 0x20

/-- The bytes of a character that needs no escape stand for themselves. -/
theorem isPlainByte_of_mem (hquote : c ≠ '"') (hslash : c ≠ '\\') (hcontrol : 0x20 ≤ c.toNat)
    {byte : UInt8} (hmem : byte ∈ String.utf8EncodeChar c) : IsPlainByte byte := by
  by_cases hascii : c.toNat < 128
  · have hbyte : c.toUInt8.toNat = c.toNat := by
      have hmod : c.toUInt8.toNat = c.toNat % 256 := rfl
      omega
    rw [Bytes.utf8EncodeChar_of_lt hascii, List.mem_singleton] at hmem
    subst hmem
    refine ⟨fun heq => hquote ?_, fun heq => hslash ?_, fun hlt => ?_⟩
    · exact Char.toNat_inj.1 (hbyte.symm.trans (congrArg UInt8.toNat heq))
    · exact Char.toNat_inj.1 (hbyte.symm.trans (congrArg UInt8.toNat heq))
    · rw [UInt8.lt_iff_toNat_lt, hbyte] at hlt
      exact absurd hlt (Nat.not_lt.2 hcontrol)
  · have hle := Bytes.le_of_mem_utf8EncodeChar (Nat.not_lt.1 hascii) byte hmem
    refine ⟨?_, ?_, fun hlt => ?_⟩
    · rintro rfl
      exact absurd hle (by decide)
    · rintro rfl
      exact absurd hle (by decide)
    · have hsmall : byte.toNat < 32 := UInt8.lt_iff_toNat_lt.1 hlt
      omega

/-! ### Reading -/

/-- Bytes lead from one state of reading a text to another, and yield bytes of the text. -/
inductive TextState.Leads : TextState → Bytes → TextState → Bytes → Prop where
  | nil (state : TextState) : Leads state [] state []
  | cons {state next last : TextState} {byte : UInt8} {bytes yield more : Bytes}
      (hstep : state.step byte = .next next yield) (hleads : Leads next bytes last more) :
      Leads state (byte :: bytes) last (yield ++ more)

namespace TextState

variable {state next last : TextState} {yield more : Bytes}

theorem Leads.append {bytes' : Bytes} (hleads : Leads state bytes next yield)
    (hleads' : Leads next bytes' last more) : Leads state (bytes ++ bytes') last (yield ++ more) := by
  induction hleads with
  | nil state => exact hleads'
  | cons hstep _ ih =>
    rw [List.append_assoc]
    exact .cons hstep (ih hleads')

theorem Leads.readTextBytes (hleads : Leads state bytes next yield) (seen input : Bytes) :
    readTextBytes state seen (bytes ++ input) = readTextBytes next (yield.reverse ++ seen) input := by
  induction hleads generalizing seen with
  | nil state => rfl
  | cons hstep _ ih =>
    rw [List.cons_append, Json.readTextBytes, hstep]
    dsimp only
    rw [ih, List.reverse_append, List.append_assoc]

theorem leads_plain (hplain : ∀ byte ∈ bytes, IsPlainByte byte) :
    Leads .plain bytes .plain bytes := by
  induction bytes with
  | nil => exact .nil _
  | cons byte bytes ih =>
    obtain ⟨⟨hquote, hslash, hcontrol⟩, hbytes⟩ := List.forall_mem_cons.1 hplain
    have hstep : TextState.step .plain byte = .next .plain [byte] := by
      simp only [TextState.step, if_neg hquote, if_neg hslash, if_neg hcontrol]
    exact .cons hstep (ih hbytes)

/-- Four digits are gathered one by one. -/
theorem leads_digits {gathered : Bytes → TextState}
    (hgather : ∀ digits byte, (digits ++ [byte]).length < 4 →
      step (gathered digits) byte = .next (gathered (digits ++ [byte])) [])
    (hlength : digits.length = 4)
    (hlast : ∀ front byte, front ++ [byte] = digits → step (gathered front) byte = .next last yield) :
    Leads (gathered []) digits last yield := by
  obtain ⟨first, second, third, fourth, rfl⟩ := List.length_eq_four.1 hlength
  have hleads := Leads.cons (hlast [first, second, third] fourth rfl) (.nil last)
  rw [List.append_nil] at hleads
  have hgather₁ := hgather [] first (Nat.lt_of_sub_eq_succ rfl)
  have hgather₂ := hgather [first] second (Nat.lt_of_sub_eq_succ rfl)
  have hgather₃ := hgather [first, second] third (Nat.lt_of_sub_eq_succ rfl)
  exact .cons hgather₁ (.cons hgather₂ (.cons hgather₃ hleads))

theorem leads_escape (hleads : Leads .escape bytes last yield) :
    Leads .plain (backslash :: bytes) last yield :=
  @Leads.cons .plain .escape last backslash bytes [] yield rfl hleads

/-- An escape with the digits of a number. -/
theorem leads_unit (hlength : digits.length = 4)
    (hlast : ∀ front byte, front ++ [byte] = digits → step (.unit front) byte = .next last yield) :
    Leads .plain (backslash :: 0x75 :: digits) last yield := by
  have hdigits : Leads (.unit []) digits last yield := by
    refine leads_digits (fun digits byte hlt => ?_) hlength hlast
    simp only [step, if_pos hlt]
  exact leads_escape (@Leads.cons .escape (.unit []) last 0x75 digits [] yield rfl hdigits)

/-- The escape of the second half of a pair. -/
theorem leads_pair {high : Nat} (hlength : digits.length = 4)
    (hlast : ∀ front byte, front ++ [byte] = digits →
      step (.pairUnit high front) byte = .next last yield) :
    Leads (.pairMark high) (backslash :: 0x75 :: digits) last yield := by
  have hdigits : Leads (.pairUnit high []) digits last yield := by
    refine leads_digits (fun digits byte hlt => ?_) hlength hlast
    simp only [step, if_pos hlt]
  exact @Leads.cons (.pairMark high) (.pairLetter high) last backslash _ [] yield rfl
    (@Leads.cons (.pairLetter high) (.pairUnit high []) last 0x75 digits [] yield rfl hdigits)

/-- The number of a character is not that of half a pair. -/
theorem not_surrogate (c : Char) : ¬(0xd800 ≤ c.toNat ∧ c.toNat ≤ 0xdfff) := by
  rintro ⟨hlow, hhigh⟩
  rcases c.valid with hvalid | ⟨hvalid, -⟩
  · exact absurd hlow (Nat.not_le.2 hvalid)
  · exact absurd hhigh (Nat.not_le.2 hvalid)

/-- However a character is spelled, it is what the spelling yields. -/
theorem leads_char (hchar : SpellsChar c bytes) :
    Leads .plain bytes .plain (String.utf8EncodeChar c) := by
  cases hchar with
  | plain hquote hslash hcontrol =>
    exact leads_plain fun byte hmem => isPlainByte_of_mem hquote hslash hcontrol hmem
  | @letter letter byte hletter hchar =>
    have hescape : letter ≠ 0x75 := by
      rintro rfl
      cases hletter
    have hstep : step .escape letter = .next .plain [byte] := by
      simp only [step, if_neg hescape, hletter]
    rw [hchar]
    exact leads_escape (.cons hstep (.nil .plain))
  | @unit digits hlength hdigits =>
    refine leads_unit hlength fun front byte hfront => ?_
    have hfull : ¬List.length digits < 4 := by omega
    have hvalid := not_surrogate c
    have hlow : ¬(0xdc00 ≤ c.toNat ∧ c.toNat ≤ 0xdfff) := by omega
    have hhigh : ¬(0xd800 ≤ c.toNat ∧ c.toNat ≤ 0xdbff) := by omega
    simp only [step, hfront, if_neg hfull, hdigits, if_neg hlow, if_neg hhigh, characterBytes,
      Char.ofNat_toNat]
  | @pair digits digits' high low hlength hlength' hdigits hdigits' hhigh hlow hchar =>
    have hfirst : Leads .plain (backslash :: 0x75 :: digits) (.pairMark high) [] := by
      refine leads_unit hlength fun front byte hfront => ?_
      have hfull : ¬List.length digits < 4 := by omega
      have hnot : ¬(0xdc00 ≤ high ∧ high ≤ 0xdfff) := by omega
      simp only [step, hfront, if_neg hfull, hdigits, if_neg hnot, if_pos hhigh]
    have hsecond : Leads (.pairMark high) (backslash :: 0x75 :: digits') .plain
        (String.utf8EncodeChar c) := by
      refine leads_pair hlength' fun front byte hfront => ?_
      have hfull : ¬List.length digits' < 4 := by omega
      have hcharacter : characterBytes (0x10000 + (high - 0xd800) * 0x400 + (low - 0xdc00)) =
          String.utf8EncodeChar c := by
        rw [← hchar, characterBytes, Char.ofNat_toNat]
      simp only [step, hfront, if_neg hfull, hdigits', if_pos hlow, hcharacter]
    exact hfirst.append hsecond

end TextState

/-- A text is read from any spelling of its characters. -/
theorem readText_of_begins (htext : BeginsText chars input rest) :
    readText input = .ok (String.ofList chars, rest) := by
  have hread (seen : Bytes) : readTextBytes .plain seen input =
      .ok (seen.reverse ++ chars.flatMap String.utf8EncodeChar, rest) := by
    induction htext generalizing seen with
    | close rest => simp [readTextBytes, TextState.step]
    | char hchar _ ih =>
      rw [(TextState.leads_char hchar).readTextBytes, ih]
      simp
  rw [readText, hread []]
  dsimp only
  rw [List.reverse_nil, List.nil_append, ← Bytes.ofText_ofList_eq_flatMap, Bytes.toText?_ofText]

/-! ### Passing over -/

theorem hexValue?_ne_none_of_mem (hdigits : hexNumber? digits = some n) :
    ∀ digit ∈ digits, hexValue? digit ≠ none := by
  rw [hexNumber?] at hdigits
  generalize 0 = start at hdigits
  induction digits generalizing start with
  | nil => exact fun _ hmem => absurd hmem List.not_mem_nil
  | cons digit digits ih =>
    rw [List.foldlM_cons, Option.bind_eq_bind, Option.bind_eq_some_iff] at hdigits
    obtain ⟨next, hnext, hrest⟩ := hdigits
    refine List.forall_mem_cons.2 ⟨fun hnone => ?_, ih next hrest⟩
    rw [hnone] at hnext
    cases hnext

theorem skipTextFrom_plain (hplain : ∀ byte ∈ bytes, IsPlainByte byte) (input : Bytes) :
    skipTextFrom .plain (bytes ++ input) = skipTextFrom .plain input := by
  induction bytes with
  | nil => rfl
  | cons byte bytes ih =>
    obtain ⟨⟨hquote, hslash, hcontrol⟩, hbytes⟩ := List.forall_mem_cons.1 hplain
    rw [List.cons_append, skipTextFrom, if_neg hquote, if_neg hslash, if_neg hcontrol, ih hbytes]

theorem skipTextFrom_unit (hlength : digits.length = 4) (hdigits : hexNumber? digits = some n)
    (input : Bytes) :
    skipTextFrom .plain (backslash :: 0x75 :: (digits ++ input)) = skipTextFrom .plain input := by
  have hvalues := hexValue?_ne_none_of_mem hdigits
  obtain ⟨first, second, third, fourth, rfl⟩ := List.length_eq_four.1 hlength
  simp only [List.forall_mem_cons] at hvalues
  obtain ⟨hfirst, hsecond, hthird, hfourth, -⟩ := hvalues
  simp [skipTextFrom, backslash, quoteMark, hfirst, hsecond, hthird, hfourth]

theorem skipTextFrom_char (hchar : SpellsChar c bytes) (input : Bytes) :
    skipTextFrom .plain (bytes ++ input) = skipTextFrom .plain input := by
  cases hchar with
  | plain hquote hslash hcontrol =>
    exact skipTextFrom_plain (fun byte hmem => isPlainByte_of_mem hquote hslash hcontrol hmem) input
  | @letter letter byte hletter hchar =>
    have hescape : letter ≠ 0x75 := by
      rintro rfl
      cases hletter
    simp [skipTextFrom, backslash, quoteMark, hescape, hletter]
  | unit hlength hdigits => exact skipTextFrom_unit hlength hdigits input
  | pair hlength hlength' hdigits hdigits' hhigh hlow hchar =>
    rw [List.cons_append, List.cons_append, List.append_assoc, skipTextFrom_unit hlength hdigits]
    exact skipTextFrom_unit hlength' hdigits' input

/-- A text is passed over in any spelling. -/
theorem skipText_of_begins (htext : BeginsText chars input rest) :
    skipText input = .ok ((), rest) := by
  rw [skipText]
  induction htext with
  | close rest => rfl
  | char hchar _ ih => rw [skipTextFrom_char hchar, ih]

/-! ### Writing -/

/-- The characters in which one is written are one of its spellings. -/
theorem spells_writtenChar (c : Char) :
    SpellsChar c ((writtenChar c).flatMap String.utf8EncodeChar) := by
  unfold writtenChar
  split_ifs with hmark hbackspace hfeed hnewline hreturn htab hcontrol
  · rcases hmark with rfl | rfl
    · exact @SpellsChar.letter _ quoteMark _ rfl rfl
    · exact @SpellsChar.letter _ backslash _ rfl rfl
  · rw [hbackspace]
    exact @SpellsChar.letter _ 0x62 8 rfl rfl
  · rw [hfeed]
    exact @SpellsChar.letter _ 0x66 12 rfl rfl
  · rw [hnewline]
    exact @SpellsChar.letter _ 0x6e 10 rfl rfl
  · rw [hreturn]
    exact @SpellsChar.letter _ 0x72 13 rfl rfl
  · rw [htab]
    exact @SpellsChar.letter _ 0x74 9 rfl rfl
  · have hdigits : ∀ n < 0x20, let digits := [Nat.digitChar 0, Nat.digitChar 0,
        Nat.digitChar (n / 16), Nat.digitChar (n % 16)].flatMap String.utf8EncodeChar
        digits.length = 4 ∧ hexNumber? digits = some n := by
      decide +kernel
    obtain ⟨hlength, hnumber⟩ := hdigits c.toNat hcontrol
    exact .unit hlength hnumber
  · rw [List.flatMap_singleton]
    exact .plain (fun heq => hmark (.inl heq)) (fun heq => hmark (.inr heq)) (Nat.not_lt.1 hcontrol)

theorem begins_flatMap_writtenChar (chars : List Char) (rest : Bytes) :
    BeginsText chars ((chars.flatMap writtenChar).flatMap String.utf8EncodeChar ++ quoteMark :: rest)
      rest := by
  induction chars with
  | nil => exact .close rest
  | cons c chars ih =>
    rw [List.flatMap_cons, List.flatMap_append, List.append_assoc]
    exact .char (spells_writtenChar c) ih

/-- What is written of a text is a quote and a spelling of the text. -/
theorem exists_begins_writeText (text : String) (rest : Bytes) :
    ∃ input, Bytes.ofText (writeText text) ++ rest = quoteMark :: input ∧
      BeginsText text.toList input rest := by
  refine ⟨_, ?_, begins_flatMap_writtenChar text.toList rest⟩
  rw [writeText, Bytes.ofText_ofList_eq_flatMap, List.cons_append, List.flatMap_cons,
    List.flatMap_append, List.append_assoc, List.append_assoc]
  rfl

end ContentVault.Json
