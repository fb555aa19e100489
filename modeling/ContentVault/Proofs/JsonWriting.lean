import ContentVault.Proofs.JsonValues

/-!
# Written values

Values are written without blanks: texts between quotes, natural numbers in their digits, and
objects member by member.  What is written begins with the value, whatever follows it.
-/

namespace ContentVault.Json

/-- Wherever a text is written, a value begins. -/
def Writes (Fits : NumberText → Prop) (depth : Nat) (text : String) (value : Value) : Prop :=
  ∀ rest, EndsNumber rest → Begins Fits depth (.value value) (Bytes.ofText text ++ rest) rest

/-- A member of an object, with the text that is written for its value. -/
structure WrittenMember where
  key : String
  text : String
  value : Value

namespace WrittenMember

def written (member : WrittenMember) : String :=
  writeText member.key ++ ":" ++ member.text

def entry (member : WrittenMember) : String × Value :=
  (member.key, member.value)

end WrittenMember

def writeObject (members : List WrittenMember) : String :=
  "\x7b" ++ String.intercalate "," (members.map WrittenMember.written) ++ "\x7d"

variable {Fits : NumberText → Prop} {depth : Nat}

theorem endsNumber_comma (rest : Bytes) : EndsNumber (comma :: rest) := by
  rintro _ ⟨⟩
  decide

theorem endsNumber_closeBrace (rest : Bytes) : EndsNumber (closeBrace :: rest) := by
  rintro _ ⟨⟩
  decide

theorem writes_text (text : String) : Writes Fits depth (writeText text) (.text text) := by
  intro rest _
  obtain ⟨input, hinput, htext⟩ := exists_begins_writeText text rest
  have hbegins : Begins Fits depth (.value (.text (String.ofList text.toList)))
      (quoteMark :: input) rest := .text (starts_cons _ _) htext
  rwa [String.ofList_toList, ← hinput] at hbegins

theorem writes_natural {n : UInt64}
    (hfits : ∀ number : NumberText, number.natural? = some n → Fits number) :
    Writes Fits depth (toString n.toNat) (.number (some n)) :=
  fun _ hends => begins_natural hfits hends

theorem begins_written {member : WrittenMember} (hwrites : Writes Fits depth member.text member.value)
    {rest : Bytes} (hends : EndsNumber rest) :
    Begins Fits depth (.member member.key member.value) (Bytes.ofText member.written ++ rest)
      rest := by
  obtain ⟨input, hinput, hkey⟩ :=
    exists_begins_writeText member.key (colon :: (Bytes.ofText member.text ++ rest))
  have hbytes : Bytes.ofText member.written ++ rest = quoteMark :: input := by
    have hcolon : Bytes.ofText ":" = [colon] := by decide
    rw [WrittenMember.written, Bytes.ofText_append, Bytes.ofText_append, hcolon, ← hinput,
      List.append_assoc, List.append_assoc, List.singleton_append]
  rw [hbytes]
  exact begins_member hkey (hwrites rest hends)

/-- A written member, and the others behind it. -/
theorem exists_begins_members {member : WrittenMember} {members : List WrittenMember}
    (hwrites : ∀ m ∈ member :: members, Writes Fits depth m.text m.value) (rest : Bytes) :
    ∃ middle, Begins Fits depth (.member member.key member.value)
        (Bytes.ofText (String.intercalate "," ((member :: members).map WrittenMember.written)) ++
          closeBrace :: rest) middle ∧
      Begins Fits depth (.members (members.map WrittenMember.entry)) middle rest := by
  induction members generalizing member with
  | nil =>
    refine ⟨closeBrace :: rest, ?_, .lastMember (starts_cons _ _)⟩
    rw [List.map_singleton, String.intercalate_singleton]
    exact begins_written (hwrites member List.mem_cons_self) (endsNumber_closeBrace rest)
  | cons next members ih =>
    obtain ⟨middle, hnext, hmembers⟩ := ih fun m hm =>
      hwrites m (List.mem_cons_of_mem member hm)
    refine ⟨_, ?_, .nextMember (starts_cons _ _) hnext hmembers⟩
    have hcomma : Bytes.ofText "," = [comma] := by decide
    rw [List.map_cons, List.map_cons, String.intercalate_cons_cons, Bytes.ofText_append,
      Bytes.ofText_append, hcomma, List.append_assoc, List.append_assoc, List.singleton_append,
      ← List.map_cons]
    exact begins_written (hwrites member List.mem_cons_self) (endsNumber_comma _)

/-- An object is written if each of its members is. -/
theorem writes_object {members : List WrittenMember}
    (hwrites : ∀ m ∈ members, Writes Fits depth m.text m.value) :
    Writes Fits (depth + 1) (writeObject members) (.object (members.map WrittenMember.entry)) := by
  intro rest _
  have hopen : Bytes.ofText "\x7b" = [openBrace] := by decide
  have hclose : Bytes.ofText "\x7d" = [closeBrace] := by decide
  rw [writeObject, Bytes.ofText_append, Bytes.ofText_append, hopen, hclose, List.append_assoc,
    List.append_assoc, List.singleton_append, List.singleton_append]
  cases members with
  | nil => exact .emptyObject (starts_cons _ _) (starts_cons _ _)
  | cons member members =>
    obtain ⟨middle, hmember, hmembers⟩ := exists_begins_members hwrites rest
    exact .object (starts_cons _ _) hmember hmembers

end ContentVault.Json
