import ContentVault.Manifest
import ContentVault.Proofs.JsonWriting

/-!
# Reading manifests

A manifest is read from any spelling of a record with its three fields, in any order and among any
other members, and of the list of the three.  What is stored as a manifest is one of these.
-/

namespace ContentVault.Manifest

open Json
open Decimal (digits)

def Field.key : Field → String
  | .chunks => "chunks"
  | .length => "length"
  | .chunkSize => "chunk_size"

theorem Field.ofKey?_key (field : Field) : Field.ofKey? field.key = some field := by
  cases field <;> rfl

theorem Field.key_of_ofKey? {key : String} {field : Field} (hfield : Field.ofKey? key = some field) :
    field.key = key := by
  unfold Field.ofKey? at hfield
  split at hfield <;> cases hfield <;> rfl

def get (manifest : Manifest) : Field → UInt64
  | .chunks => manifest.chunks
  | .length => manifest.length
  | .chunkSize => manifest.chunkSize

def member (manifest : Manifest) (field : Field) : String × Value :=
  (field.key, .number (some (manifest.get field)))

/-- The values that stand for a manifest: an object in which every field is given once, whatever
else is in it, and the list of the fields. -/
inductive Describes (manifest : Manifest) : Value → Prop where
  | object {members : List (String × Value)}
      (hfields : ∀ field : Field,
        members.filter (fun member => member.1 = field.key) = [manifest.member field]) :
      Describes manifest (.object members)
  | list :
      Describes manifest (.list [.number (some manifest.chunks), .number (some manifest.length),
        .number (some manifest.chunkSize)])

/-! ### Objects -/

def step (fields : Fields) (member : String × Value) : Option Fields :=
  match Field.ofKey? member.1 with
  | none => some fields
  | some field =>
    match fields field, member.2 with
    | none, .number (some n) => some fun f => if f = field then some n else fields f
    | _, _ => none

theorem takes_memberReader {Fits : NumberText → Prop} {depth : Nat} :
    memberReader.Takes Fits depth step := by
  intro fields fields' key value input middle rest hstep hcolon hvalue
  simp only [memberReader, readMember, hcolon.readColon]
  cases hkey : Field.ofKey? key with
  | none =>
    simp only [step, hkey] at hstep
    cases hstep
    simp only [skipValue_of_begins hvalue]
  | some field =>
    simp only [step, hkey] at hstep
    split at hstep
    · rename_i n hnew
      cases hstep
      simp only [hnew, Option.isSome_none, readNatural_of_begins hvalue]
      rfl
    · cases hstep

/-- The fields that have not been read are still to come, each once, and no others are. -/
def Owes (manifest : Manifest) (fields : Fields) (members : List (String × Value)) : Prop :=
  ∀ field : Field, (fields field = none ∧
      members.filter (fun member => member.1 = field.key) = [manifest.member field]) ∨
    (fields field = some (manifest.get field) ∧
      members.filter (fun member => member.1 = field.key) = [])

theorem Owes.steps {manifest : Manifest} {fields : Fields} {members : List (String × Value)}
    (howes : manifest.Owes fields members) :
    members.foldlM step fields = some fun field => some (manifest.get field) := by
  induction members generalizing fields with
  | nil =>
    refine congrArg some (funext fun field => ?_)
    rcases howes field with ⟨-, hfilter⟩ | ⟨hvalue, -⟩
    · cases hfilter
    · exact hvalue
  | cons first members ih =>
    obtain ⟨key, value⟩ := first
    rw [List.foldlM_cons]
    cases hkey : Field.ofKey? key with
    | none =>
      have hstep : step fields (key, value) = some fields := by simp only [step, hkey]
      rw [hstep]
      refine ih fun field => ?_
      have hne : ¬key = field.key := by
        rintro rfl
        rw [field.ofKey?_key] at hkey
        cases hkey
      have hfield := howes field
      rwa [List.filter_cons_of_neg (by simpa using hne)] at hfield
    | some field =>
      have hsame : key = field.key := (Field.key_of_ofKey? hkey).symm
      have hfield := howes field
      rw [List.filter_cons_of_pos (by simpa using hsame)] at hfield
      rcases hfield with ⟨hnew, hfilter⟩ | ⟨-, hfilter⟩
      · obtain ⟨hfirst, hnone⟩ := List.cons.inj hfilter
        have hstep : step fields (key, value) =
            some fun f => if f = field then some (manifest.get field) else fields f := by
          rw [hfirst]
          simp only [step, member, field.ofKey?_key, hnew]
        rw [hstep]
        refine ih fun other => ?_
        by_cases heq : other = field
        · subst heq
          exact .inr ⟨if_pos rfl, hnone⟩
        · have hne : ¬key = other.key := by
            rintro rfl
            rw [other.ofKey?_key] at hkey
            exact heq (Option.some.inj hkey)
          have hother := howes other
          rw [List.filter_cons_of_neg (by simpa using hne)] at hother
          simpa only [if_neg heq] using hother
      · cases hfilter

/-- Any spelling of a value that stands for a manifest is read as that manifest. -/
theorem decode_of_begins {manifest : Manifest} {value : Value} {Fits : NumberText → Prop}
    {depth : Nat} {input rest : Bytes} (hdescribes : manifest.Describes value)
    (hbegins : Begins Fits depth (.value value) input rest)
    (hblank : ∀ byte ∈ rest, isBlank byte = true) : decode input = .ok manifest := by
  have hread : readRecord input = .ok (manifest, rest) := by
    cases hdescribes with
    | @object members hfields =>
      have howes : manifest.Owes (fun _ => none) members := fun field =>
        .inl ⟨rfl, hfields field⟩
      cases depth with
      | zero => cases hbegins
      | succ depth =>
        obtain ⟨middle, hnext, hmembers⟩ :=
          memberReader.members_of_object takes_memberReader hbegins howes.steps
        have hbrace : ¬openBrace = openBracket := by decide
        simp only [readRecord, hnext, if_neg hbrace, if_true, hmembers, ofFields?, get]
    | list =>
      cases hbegins with
      | list hopen hchunks hitems =>
        cases hitems with
        | nextItem hcomma hlength hitems =>
          cases hitems with
          | nextItem hcomma' hchunkSize hitems =>
            cases hitems with
            | lastItem hclose =>
              have hbracket := hopen.nextByte? (by decide)
              have hfirst := readItem_first hchunks (readNatural_of_begins hchunks)
              have hsecond := readItem_next hcomma hlength (readNatural_of_begins hlength)
              have hthird := readItem_next hcomma' hchunkSize (readNatural_of_begins hchunkSize)
              simp only [readRecord, hbracket, if_true, readItems, hfirst, hsecond, hthird,
                hclose.closeList, bind, Except.bind]
  exact readDocument_of_read hread hblank

/-! ### What is stored -/

def writtenMember (manifest : Manifest) (field : Field) : WrittenMember :=
  ⟨field.key, toString (manifest.get field).toNat, .number (some (manifest.get field))⟩

def Field.all : List Field :=
  [.chunks, .length, .chunkSize]

theorem render_eq (manifest : Manifest) :
    manifest.render = writeObject (Field.all.map manifest.writtenMember) := by
  have hchunks : "\x7b\"chunks\":" = "\x7b" ++ (writeText "chunks" ++ ":") := by decide +kernel
  have hlength : ",\"length\":" = "," ++ (writeText "length" ++ ":") := by decide +kernel
  have hsize : ",\"chunk_size\":" = "," ++ (writeText "chunk_size" ++ ":") := by decide +kernel
  delta render
  simp only [hchunks, hlength, hsize, writeObject, Field.all, List.map_cons, List.map_nil,
    String.intercalate_cons_cons, String.intercalate_singleton, WrittenMember.written, writtenMember,
    Field.key, get, String.append_assoc]

/-- What is stored of a manifest is the object of its fields. -/
theorem begins_encode (manifest : Manifest) :
    Begins (fun _ => True) 1 (.value (.object (Field.all.map manifest.member))) manifest.encode
      [] := by
  have hwrites : ∀ m ∈ Field.all.map manifest.writtenMember,
      Writes (fun _ => True) 0 m.text m.value :=
    List.forall_mem_map.2 fun field _ => writes_natural fun _ _ => trivial
  have hobject := writes_object hwrites [] nofun
  rw [List.append_nil, ← render_eq, List.map_map] at hobject
  exact hobject

/-- What is stored as a manifest reads as that manifest. -/
theorem decode_encode (manifest : Manifest) : decode manifest.encode = .ok manifest := by
  refine decode_of_begins (.object fun field => ?_) manifest.begins_encode nofun
  cases field <;> simp [Field.all, member, Field.key]

end ContentVault.Manifest
