import ContentVault.Config.Basic

/-!
# Reading configurations

A backend is first read as a whole, apart from its kind, so that what is not
well-formed in it is reported before what is out of place; then its members are
looked at.  Both kinds of tagged object may also be written as lists, the tag first.
-/

namespace ContentVault

open Json

namespace StoreKind

/-- The tag that a value stands for: its name or its number. -/
def Tag.ofValue? : Value → Option Tag
  | .text "memory" => some .memory
  | .text "redb" => some .database
  | .number (some 0) => some .memory
  | .number (some 1) => some .database
  | _ => none

def ofMembers (tag : Tag) (members : List (String × Value)) : Except JsonFault StoreKind :=
  match tag with
  | .memory => .ok .memory
  | .database =>
    match member? members "path" with
    | .error fault => .error fault
    | .ok none => .error .mismatched
    | .ok (some path) => path.toText.map .database

def ofItems (tag : Tag) (items : List Value) : Except JsonFault StoreKind :=
  match tag, items with
  | .memory, [] => .ok .memory
  | .database, [path] => path.toText.map .database
  | _, _ => .error .mismatched

def ofValue : Value → Except JsonFault StoreKind
  | .object members =>
    match member? members "type" with
    | .ok (some tag) =>
      match Tag.ofValue? tag with
      | some tag => ofMembers tag members
      | none => .error .mismatched
    | _ => .error .mismatched
  | .list (tag :: items) =>
    match Tag.ofValue? tag with
    | some tag => ofItems tag items
    | none => .error .mismatched
  | _ => .error .mismatched

end StoreKind

namespace BackendConfig

def Kind.ofName? : String → Option Kind
  | "direct" => some .direct
  | "chunked" => some .chunked
  | _ => none

/-- The chunk size that a value tells, the standard one if it is missing. -/
def chunkSizeOf : Option Value → Except JsonFault ChunkSize
  | none => .ok .standard
  | some (.number (some bytes)) =>
    match ChunkSize.ofWord? bytes with
    | some chunkSize => .ok chunkSize
    | none => .error .mismatched
  | some _ => .error .mismatched

/-- The properties that a value lists, none if it is missing.  Of several values
under one name the last stands. -/
def propertiesOf : Option Value → Except JsonFault Properties
  | none => .ok ∅
  | some (.object members) =>
    members.foldlM (fun (properties : Properties) member =>
      member.2.toText.map (properties.insert member.1)) ∅
  | some _ => .error .mismatched

def ofChunked (store chunkSize properties : Option Value) : Except JsonFault BackendConfig :=
  match store with
  | none => .error .mismatched
  | some store =>
    match StoreKind.ofValue store, chunkSizeOf chunkSize, propertiesOf properties with
    | .ok store, .ok chunkSize, .ok properties => .ok (.chunked store chunkSize properties)
    | _, _, _ => .error .mismatched

def ofMembers (kind : Kind) (members : List (String × Value)) : Except JsonFault BackendConfig :=
  match kind with
  | .direct =>
    match member? members "root" with
    | .ok (some root) => root.toText.map .direct
    | _ => .error .mismatched
  | .chunked =>
    match member? members "store", member? members "chunk_size",
      member? members "properties" with
    | .ok store, .ok chunkSize, .ok properties => ofChunked store chunkSize properties
    | _, _, _ => .error .mismatched

def ofItems (kind : Kind) (items : List Value) : Except JsonFault BackendConfig :=
  match kind, items with
  | .direct, [root] => root.toText.map .direct
  | .chunked, [store] => ofChunked store none none
  | .chunked, [store, chunkSize] => ofChunked store chunkSize none
  | .chunked, [store, chunkSize, properties] => ofChunked store chunkSize properties
  | _, _ => .error .mismatched

/-- How many lists and objects may be open at once within a member of a backend. -/
def room : Nat := 125

def readKind (input : Bytes) : Except JsonFault (Kind × Bytes) :=
  match readTextValue input with
  | .error fault => .error fault
  | .ok (name, rest) =>
    match Kind.ofName? name with
    | some kind => .ok (kind, rest)
    | none => .error .mismatched

abbrev Fields := Option Kind × List (String × Value)

/-- Reads a member after its key; the kind may be given only once. -/
def readMember (fields : Fields) (key : String) (input : Bytes) :
    Except JsonFault (Fields × Bytes) :=
  if key = "kind" then
    if fields.1.isSome then .error .mismatched
    else match Collector.readColon input with
      | .error fault => .error fault
      | .ok rest =>
        match readKind rest with
        | .error fault => .error fault
        | .ok (kind, rest) => .ok ((some kind, fields.2), rest)
  else match Collector.readColon input with
    | .error fault => .error fault
    | .ok rest =>
      match (values room).value [] rest with
      | .error fault => .error fault
      | .ok (value, rest) => .ok ((fields.1, (key, value) :: fields.2), rest)

theorem length_readKind {input rest : Bytes} {kind : Kind}
    (hread : readKind input = .ok (kind, rest)) : rest.length < input.length := by
  rw [readKind] at hread
  split at hread
  · cases hread
  · rename_i hname
    split at hread
    · cases hread
      exact length_readTextValue hname
    · cases hread

theorem length_readMember {fields fields' : Fields} {key : String} {input rest : Bytes}
    (hread : readMember fields key input = .ok (fields', rest)) :
    rest.length ≤ input.length := by
  rw [readMember] at hread
  split at hread
  · split at hread
    · cases hread
    split at hread
    · cases hread
    rename_i hcolon
    have h1 := Collector.length_readColon hcolon
    split at hread
    · cases hread
    · rename_i hkind
      have h2 := length_readKind hkind
      cases hread
      omega
  · split at hread
    · cases hread
    rename_i hcolon
    have h1 := Collector.length_readColon hcolon
    split at hread
    · cases hread
    · rename_i hvalue
      have h2 := Collector.length_value hvalue
      cases hread
      omega

def memberReader : MemberReader Fields :=
  ⟨readMember, length_readMember⟩

def readItems (input : Bytes) : Except JsonFault (BackendConfig × Bytes) :=
  match readItem readKind true input with
  | .error fault => .error fault
  | .ok (kind, rest) =>
    match readValues room false rest with
    | .error fault => .error fault
    | .ok (items, rest) => (ofItems kind items).map fun backend => (backend, rest)

def readMembers (input : Bytes) : Except JsonFault (BackendConfig × Bytes) :=
  match memberReader.members (none, []) true input with
  | .error fault => .error fault
  | .ok ((none, _), _) => .error .mismatched
  | .ok ((some kind, members), rest) =>
    (ofMembers kind members.reverse).map fun backend => (backend, rest)

def read (input : Bytes) : Except JsonFault (BackendConfig × Bytes) :=
  match nextByte? input with
  | none => .error .truncated
  | some (byte, rest) =>
    if byte = openBracket then readItems rest
    else if byte = openBrace then readMembers rest
    else .error (mismatch (byte :: rest))

theorem length_readItems {input rest : Bytes} {backend : BackendConfig}
    (hread : readItems input = .ok (backend, rest)) : rest.length ≤ input.length := by
  rw [readItems, readItem] at hread
  split at hread
  · cases hread
  rename_i kind after hkind
  split at hkind
  · cases hkind
  · cases hkind
  rename_i hnext
  have h1 := length_nextItem hnext
  have h2 := length_readKind hkind
  split at hread
  · cases hread
  rename_i items after' hitems
  have h3 := length_readValues hitems
  cases hof : ofItems kind items with
  | error fault => rw [hof] at hread; cases hread
  | ok found =>
    rw [hof] at hread
    cases hread
    omega

theorem length_readMembers {input rest : Bytes} {backend : BackendConfig}
    (hread : readMembers input = .ok (backend, rest)) : rest.length ≤ input.length := by
  rw [readMembers] at hread
  split at hread
  · cases hread
  · cases hread
  rename_i kind members after hmembers
  have h1 := memberReader.length_members hmembers
  cases hof : ofMembers kind members.reverse with
  | error fault => rw [hof] at hread; cases hread
  | ok found =>
    rw [hof] at hread
    cases hread
    exact h1

theorem length_read {input rest : Bytes} {backend : BackendConfig}
    (hread : read input = .ok (backend, rest)) : rest.length ≤ input.length := by
  rw [read] at hread
  split at hread
  · cases hread
  rename_i byte after hinput
  have hafter := length_nextByte? hinput
  split at hread
  · have := length_readItems hread
    omega
  split at hread
  · have := length_readMembers hread
    omega
  · cases hread

end BackendConfig

namespace Config

/-- Reads a member after its key; the backend may be given only once, and other
members are passed over. -/
def readMember (backend : Option BackendConfig) (key : String) (input : Bytes) :
    Except JsonFault (Option BackendConfig × Bytes) :=
  if key = "backend" then
    if backend.isSome then .error .mismatched
    else match Collector.readColon input with
      | .error fault => .error fault
      | .ok rest =>
        match BackendConfig.read rest with
        | .error fault => .error fault
        | .ok (backend, rest) => .ok (some backend, rest)
  else match Collector.readColon input with
    | .error fault => .error fault
    | .ok rest =>
      match skipValue rest with
      | .error fault => .error fault
      | .ok rest => .ok (backend, rest)

theorem length_readMember {backend backend' : Option BackendConfig} {key : String}
    {input rest : Bytes} (hread : readMember backend key input = .ok (backend', rest)) :
    rest.length ≤ input.length := by
  rw [readMember] at hread
  split at hread
  · split at hread
    · cases hread
    split at hread
    · cases hread
    rename_i hcolon
    have h1 := Collector.length_readColon hcolon
    split at hread
    · cases hread
    · rename_i hbackend
      have h2 := BackendConfig.length_read hbackend
      cases hread
      omega
  · split at hread
    · cases hread
    rename_i hcolon
    have h1 := Collector.length_readColon hcolon
    split at hread
    · cases hread
    · rename_i hskip
      have h2 := length_skipValue hskip
      cases hread
      omega

def memberReader : MemberReader (Option BackendConfig) :=
  ⟨readMember, length_readMember⟩

def readItems (input : Bytes) : Except JsonFault (Config × Bytes) :=
  match readItem BackendConfig.read true input with
  | .error fault => .error fault
  | .ok (backend, rest) =>
    match closeList rest with
    | .error fault => .error fault
    | .ok rest => .ok (⟨backend⟩, rest)

def readRecord (input : Bytes) : Except JsonFault (Config × Bytes) :=
  match nextByte? input with
  | none => .error .truncated
  | some (byte, rest) =>
    if byte = openBracket then readItems rest
    else if byte = openBrace then
      match memberReader.members none true rest with
      | .error fault => .error fault
      | .ok (none, _) => .error .mismatched
      | .ok (some backend, rest) => .ok (⟨backend⟩, rest)
    else .error (mismatch (byte :: rest))

def decode (bytes : Bytes) : Except JsonFault Config :=
  readDocument readRecord bytes

end Config

end ContentVault
