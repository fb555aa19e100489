import ContentVault.Config.Decode
import ContentVault.Proofs.ConfigurationHistory
import ContentVault.Proofs.JsonWriting

/-!
# Reading configurations

What is read from a document depends only on the JSON value that it spells.  The value that is
written for a configuration stands for that configuration, whatever its texts are.
-/

namespace ContentVault

open Json

theorem Except.eq_ok_of_toOption {ε α : Type} {result : Except ε α} {found : α}
    (hfound : result.toOption = some found) : result = .ok found := by
  cases result with
  | error => cases hfound
  | ok => exact congrArg Except.ok (Option.some.inj hfound)

namespace BackendConfig

def step (fields : Fields) (member : String × Value) : Option Fields :=
  if member.1 = "kind" then
    match fields.1, member.2 with
    | none, .text name => (Kind.ofName? name).map fun kind => (some kind, fields.2)
    | _, _ => none
  else some (fields.1, member :: fields.2)

def ofValue? : Value → Option BackendConfig
  | .object members =>
    match members.foldlM step (none, []) with
    | some (some kind, others) => (ofMembers kind others.reverse).toOption
    | _ => none
  | .list (.text name :: items) =>
    match Kind.ofName? name with
    | some kind => (ofItems kind items).toOption
    | none => none
  | _ => none

section Reading

variable {depth : Nat} {input rest : Bytes} {kind : Kind} {name : String} {value : Value}
  {backend : BackendConfig}

theorem readKind_of_begins (hbegins : Begins InRange depth (.value (.text name)) input rest)
    (hname : Kind.ofName? name = some kind) : readKind input = .ok (kind, rest) := by
  simp only [readKind, readTextValue_of_begins hbegins, hname]

theorem takes_memberReader (hdepth : depth ≤ room) : memberReader.Takes InRange depth step := by
  intro fields fields' key value input middle rest hstep hcolon hvalue
  simp only [step] at hstep
  simp only [memberReader, readMember, hcolon.readColon]
  split_ifs at hstep with hkind
  · rw [if_pos hkind]
    split at hstep
    · rename_i name hnew
      obtain ⟨kind, hname, rfl⟩ := Option.map_eq_some_iff.1 hstep
      simp only [hnew, Option.isSome_none, readKind_of_begins hvalue hname]
      rfl
    · cases hstep
  · cases hstep
    simp only [if_neg hkind, value_of_begins hdepth hvalue]

/-- A backend is read from any spelling of a value that stands for it. -/
theorem read_of_begins (hdepth : depth ≤ room + 1)
    (hbegins : Begins InRange depth (.value value) input rest)
    (hvalue : ofValue? value = some backend) : read input = .ok (backend, rest) := by
  cases value with
  | object members =>
    simp only [ofValue?] at hvalue
    split at hvalue
    · rename_i kind others hsteps
      cases depth with
      | zero => cases hbegins
      | succ depth =>
        obtain ⟨middle, hopen, hmembers⟩ := memberReader.members_of_object
          (takes_memberReader (Nat.le_of_succ_le_succ hdepth)) hbegins hsteps
        have hbrace : ¬openBrace = openBracket := by decide
        simp only [read, hopen, if_neg hbrace, if_true, readMembers, hmembers]
        rw [Except.eq_ok_of_toOption hvalue]
        rfl
    · cases hvalue
  | list items =>
    cases hbegins with
    | emptyList => cases hvalue
    | @list _ item items _ middle after _ hopen hitem hitems =>
      have hbracket := hopen.nextByte? (by decide)
      cases item with
      | text name =>
        simp only [ofValue?] at hvalue
        split at hvalue
        · rename_i kind hname
          have hkind := readItem_first hitem (readKind_of_begins hitem hname)
          have hothers := readValues_of_begins (Nat.le_of_succ_le_succ hdepth) hitems
          simp only [read, hbracket, if_true, readItems, hkind, hothers]
          rw [Except.eq_ok_of_toOption hvalue]
          rfl
        · cases hvalue
      | null => cases hvalue
      | bool => cases hvalue
      | number => cases hvalue
      | list => cases hvalue
      | object => cases hvalue
  | null => cases hvalue
  | bool => cases hvalue
  | number => cases hvalue
  | text => cases hvalue

end Reading

end BackendConfig

namespace Config

def step (backend : Option BackendConfig) (member : String × Value) :
    Option (Option BackendConfig) :=
  if member.1 = "backend" then
    match backend with
    | none => (BackendConfig.ofValue? member.2).map some
    | some _ => none
  else some backend

def ofValue? : Value → Option Config
  | .object members =>
    match members.foldlM step none with
    | some (some backend) => some ⟨backend⟩
    | _ => none
  | .list [backend] => (BackendConfig.ofValue? backend).map Config.mk
  | _ => none

section Reading

variable {depth : Nat} {input : Bytes} {config : Config}

theorem takes_memberReader (hdepth : depth ≤ BackendConfig.room + 1) :
    memberReader.Takes InRange depth step := by
  intro backend backend' key value input middle rest hstep hcolon hvalue
  simp only [step] at hstep
  simp only [memberReader, readMember, hcolon.readColon]
  split_ifs at hstep with hkey
  · rw [if_pos hkey]
    cases backend with
    | some backend => cases hstep
    | none =>
      obtain ⟨backend, hbackend, rfl⟩ := Option.map_eq_some_iff.1 hstep
      simp only [Option.isSome_none, BackendConfig.read_of_begins hdepth hvalue hbackend]
      rfl
  · cases hstep
    simp only [if_neg hkey, skipValue_of_begins hvalue]

/-- The bytes spell a JSON value that stands for the configuration, and in it no more lists and
objects are open at once than a document may nest. -/
def SpelledBy (config : Config) (bytes : Bytes) : Prop :=
  ∃ value depth blanks, ofValue? value = some config ∧ depth ≤ BackendConfig.room + 2 ∧
    Begins InRange depth (.value value) bytes blanks ∧ ∀ byte ∈ blanks, isBlank byte = true

/-- Whatever spells a configuration is read as that configuration. -/
theorem SpelledBy.decode (hspelled : config.SpelledBy input) : decode input = .ok config := by
  obtain ⟨value, depth, rest, hvalue, hdepth, hbegins, hblank⟩ := hspelled
  have hread : readRecord input = .ok (config, rest) := by
    cases value with
    | object members =>
      simp only [ofValue?] at hvalue
      split at hvalue
      · rename_i backend hsteps
        cases hvalue
        cases depth with
        | zero => cases hbegins
        | succ depth =>
          obtain ⟨middle, hopen, hmembers⟩ := memberReader.members_of_object
            (takes_memberReader (Nat.le_of_succ_le_succ hdepth)) hbegins hsteps
          have hbrace : ¬openBrace = openBracket := by decide
          simp only [readRecord, hopen, if_neg hbrace, if_true, hmembers]
      · cases hvalue
    | list items =>
      cases hbegins with
      | emptyList => cases hvalue
      | list hopen hitem hitems =>
        cases hitems with
        | nextItem => cases hvalue
        | lastItem hclose =>
          have hbracket := hopen.nextByte? (by decide)
          obtain ⟨backend, hbackend, rfl⟩ := Option.map_eq_some_iff.1 hvalue
          have hread := readItem_first hitem
            (BackendConfig.read_of_begins (Nat.le_of_succ_le_succ hdepth) hitem hbackend)
          simp only [readRecord, hbracket, if_true, readItems, hread, hclose.closeList]
    | null => cases hvalue
    | bool => cases hvalue
    | number => cases hvalue
    | text => cases hvalue
  exact readDocument_of_read hread hblank

end Reading

end Config

/-! ### What is written -/

def Json.textMember (key text : String) : WrittenMember :=
  ⟨key, writeText text, .text text⟩

def Json.objectMember (key : String) (members : List WrittenMember) : WrittenMember :=
  ⟨key, writeObject members, .object (members.map WrittenMember.entry)⟩

def Properties.members (properties : Properties) : List WrittenMember :=
  properties.toList.map fun pair => textMember pair.1 pair.2

def StoreKind.members : StoreKind → List WrittenMember
  | .memory => [textMember "type" "memory"]
  | .database path => [textMember "type" "redb", textMember "path" path]

def BackendConfig.members : BackendConfig → List WrittenMember
  | .direct root => [textMember "kind" "direct", textMember "root" root]
  | .chunked store chunkSize properties =>
    [textMember "kind" "chunked", objectMember "store" store.members,
      ⟨"chunk_size", toString chunkSize.toNat, .number (some chunkSize.bytes)⟩,
      objectMember "properties" properties.members]

def Config.members (config : Config) : List WrittenMember :=
  [objectMember "backend" config.backend.members]

theorem Properties.render_eq (properties : Properties) :
    BackendConfig.renderProperties properties = writeObject properties.members := by
  rw [BackendConfig.renderProperties, writeObject, Properties.members, List.map_map]
  rfl

theorem StoreKind.render_eq (store : StoreKind) : store.render = writeObject store.members := by
  have htype : "\x7b\"type\":" = "\x7b" ++ (writeText "type" ++ ":") := by decide +kernel
  have hpath : ",\"path\":" = "," ++ (writeText "path" ++ ":") := by decide +kernel
  cases store <;>
    simp only [render, htype, hpath, writeObject, members, textMember, List.map_cons, List.map_nil,
      String.intercalate_cons_cons, String.intercalate_singleton, WrittenMember.written, Tag.name,
      String.append_assoc]

theorem BackendConfig.render_eq (backend : BackendConfig) :
    backend.render = writeObject backend.members := by
  have hkind : "\x7b\"kind\":" = "\x7b" ++ (writeText "kind" ++ ":") := by decide +kernel
  have hroot : ",\"root\":" = "," ++ (writeText "root" ++ ":") := by decide +kernel
  have hstore : ",\"store\":" = "," ++ (writeText "store" ++ ":") := by decide +kernel
  have hsize : ",\"chunk_size\":" = "," ++ (writeText "chunk_size" ++ ":") := by decide +kernel
  have hproperties : ",\"properties\":" = "," ++ (writeText "properties" ++ ":") := by
    decide +kernel
  -- The equations of `render` are slow to derive: its definition is unfolded instead.
  delta BackendConfig.render
  cases backend with
  | direct root =>
    simp only [members, hkind, hroot, writeObject, textMember, List.map_cons, List.map_nil,
      String.intercalate_cons_cons, String.intercalate_singleton, WrittenMember.written, Kind.name,
      String.append_assoc]
  | chunked store chunkSize properties =>
    simp only [members, hkind, hstore, hsize, hproperties, store.render_eq,
      properties.render_eq, Kind.name]
    simp only [writeObject, textMember, objectMember, List.map_cons, List.map_nil,
      String.intercalate_cons_cons, String.intercalate_singleton, WrittenMember.written,
      String.append_assoc]

theorem Config.render_eq (config : Config) : config.render = writeObject config.members := by
  have hbackend : "\x7b\"backend\":" = "\x7b" ++ (writeText "backend" ++ ":") := by decide +kernel
  simp only [render, hbackend, BackendConfig.render_eq, writeObject, members, objectMember,
    List.map_cons, List.map_nil, String.intercalate_singleton, WrittenMember.written,
    String.append_assoc]

section Writing

variable {depth : Nat}

theorem Json.writes_textMember (key text : String) :
    Writes InRange depth (textMember key text).text (textMember key text).value :=
  writes_text text

theorem Properties.writes (properties : Properties) :
    ∀ m ∈ properties.members, Writes InRange depth m.text m.value :=
  List.forall_mem_map.2 fun pair _ => writes_textMember pair.1 pair.2

theorem StoreKind.writes (store : StoreKind) :
    ∀ m ∈ store.members, Writes InRange depth m.text m.value := by
  cases store <;> simp [members, writes_textMember]

theorem BackendConfig.writes (backend : BackendConfig) :
    ∀ m ∈ backend.members, Writes InRange (depth + 1) m.text m.value := by
  cases backend with
  | direct root => simp [members, writes_textMember]
  | chunked store chunkSize properties =>
    have hstore := writes_object (@StoreKind.writes depth store)
    have hproperties := writes_object (@Properties.writes depth properties)
    have hsize : Writes InRange (depth + 1) (toString chunkSize.toNat)
        (.number (some chunkSize.bytes)) := writes_natural fun _ => overflows_of_natural?
    simp only [members, List.forall_mem_cons]
    exact ⟨writes_textMember _ _, hstore, hsize, hproperties, nofun⟩

theorem Config.writes (config : Config) :
    ∀ m ∈ config.members, Writes InRange (depth + 2) m.text m.value :=
  List.forall_mem_singleton.2 (writes_object config.backend.writes)

end Writing

theorem StoreKind.ofValue_members (store : StoreKind) :
    ofValue (.object (store.members.map WrittenMember.entry)) = .ok store := by
  cases store <;> rfl

/-- Taken in one by one, written properties are the same again. -/
theorem BackendConfig.propertiesOf_members (properties : Properties) :
    propertiesOf (some (.object (properties.members.map WrittenMember.entry))) =
      .ok properties := by
  have hfold (pairs : List (String × String)) (start : Properties) :
      ((pairs.map fun pair => textMember pair.1 pair.2).map WrittenMember.entry).foldlM
          (fun (properties : Properties) member =>
            member.2.toText.map (properties.insert member.1)) start =
        Except.ok (start.insertMany pairs) := by
    induction pairs generalizing start with
    | nil => rw [Std.ExtTreeMap.insertMany_nil]; rfl
    | cons pair pairs ih =>
      rw [Std.ExtTreeMap.insertMany_cons, ← ih]
      rfl
  rw [propertiesOf, Properties.members, hfold]
  refine congrArg Except.ok (Std.ExtTreeMap.ext_getElem? fun {name} => ?_)
  rw [Properties.getElem?_insertMany, Std.ExtTreeMap.getElem?_empty, Option.or_none]

theorem BackendConfig.ofValue?_members (backend : BackendConfig) :
    ofValue? (.object (backend.members.map WrittenMember.entry)) = some backend := by
  cases backend with
  | direct root => rfl
  | chunked store chunkSize properties =>
    have hsize : chunkSizeOf (some (.number (some chunkSize.bytes))) = .ok chunkSize := by
      simp [chunkSizeOf, ChunkSize.ofWord?, chunkSize.bytes_ne_zero]
    let stored := Value.object (store.members.map WrittenMember.entry)
    let listed := Value.object (properties.members.map WrittenMember.entry)
    have hsteps : ((chunked store chunkSize properties).members.map WrittenMember.entry).foldlM step
        (none, []) = some (some .chunked, [("properties", listed),
          ("chunk_size", .number (some chunkSize.bytes)), ("store", stored)]) := rfl
    have hmembers : ofMembers .chunked [("store", stored),
        ("chunk_size", .number (some chunkSize.bytes)), ("properties", listed)] =
          ofChunked (some stored) (some (.number (some chunkSize.bytes))) (some listed) := rfl
    simp only [ofValue?, hsteps, List.reverse_cons, List.reverse_nil, List.nil_append,
      List.cons_append, hmembers, ofChunked, stored, listed, store.ofValue_members, hsize,
      propertiesOf_members]
    rfl

theorem Config.ofValue?_members (config : Config) :
    ofValue? (.object (config.members.map WrittenMember.entry)) = some config := by
  have hsteps : (config.members.map WrittenMember.entry).foldlM step none =
      (BackendConfig.ofValue? (.object (config.backend.members.map WrittenMember.entry))).map
        some := by
    simp [members, step, objectMember, WrittenMember.entry]
  simp only [ofValue?, hsteps, BackendConfig.ofValue?_members, Option.map_some]

/-- What is written of a configuration spells it. -/
theorem Config.spelledBy_render (config : Config) :
    config.SpelledBy (Bytes.ofText config.render) := by
  have hobject := writes_object (@Config.writes 0 config) [] nofun
  rw [List.append_nil, ← render_eq] at hobject
  exact ⟨_, _, _, config.ofValue?_members, by decide, hobject, nofun⟩

end ContentVault
