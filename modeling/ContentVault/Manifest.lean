import ContentVault.Json.Record

/-!
# Manifests

A manifest closes the sequence of chunks of a value: it tells how many chunks
there are, how long the value is, and how long every chunk but the last is.  It
is stored as a JSON object; any JSON record with its three fields is read.
-/

namespace ContentVault

open Json

structure Manifest where
  chunks : UInt64
  length : UInt64
  chunkSize : UInt64
  deriving DecidableEq, Repr

namespace Manifest

def render (manifest : Manifest) : String :=
  "\x7b\"chunks\":" ++ toString manifest.chunks.toNat ++
    ",\"length\":" ++ toString manifest.length.toNat ++
    ",\"chunk_size\":" ++ toString manifest.chunkSize.toNat ++ "\x7d"

def encode (manifest : Manifest) : Bytes :=
  Bytes.ofText manifest.render

inductive Field where
  | chunks
  | length
  | chunkSize
  deriving DecidableEq, Repr

def Field.ofKey? : String → Option Field
  | "chunks" => some .chunks
  | "length" => some .length
  | "chunk_size" => some .chunkSize
  | _ => none

abbrev Fields := Field → Option UInt64

/-- The manifest, once every field has been read. -/
def ofFields? (fields : Fields) : Option Manifest :=
  match fields .chunks, fields .length, fields .chunkSize with
  | some chunks, some length, some chunkSize => some ⟨chunks, length, chunkSize⟩
  | _, _, _ => none

/-- Reads a member after its key; a field may be given only once. -/
def readMember (fields : Fields) (key : String) (input : Bytes) :
    Except JsonFault (Fields × Bytes) :=
  match Field.ofKey? key with
  | some field =>
    if (fields field).isSome then .error .mismatched
    else match Collector.readColon input with
      | .error fault => .error fault
      | .ok rest =>
        match readNatural rest with
        | .error fault => .error fault
        | .ok (n, rest) => .ok (fun f => if f = field then some n else fields f, rest)
  | none =>
    match Collector.readColon input with
    | .error fault => .error fault
    | .ok rest =>
      match skipValue rest with
      | .error fault => .error fault
      | .ok rest => .ok (fields, rest)

theorem length_readMember {fields fields' : Fields} {key : String} {input rest : Bytes}
    (hread : readMember fields key input = .ok (fields', rest)) :
    rest.length ≤ input.length := by
  rw [readMember] at hread
  split at hread
  · split at hread
    · cases hread
    split at hread
    · cases hread
    rename_i hcolon
    have h1 := Collector.length_readColon hcolon
    split at hread
    · cases hread
    · rename_i hnatural
      have h2 := length_readNatural hnatural
      cases hread
      omega
  · split at hread
    · cases hread
    rename_i hcolon
    have h1 := Collector.length_readColon hcolon
    split at hread
    · cases hread
    · rename_i hskip
      have h2 := length_skipValue hskip
      cases hread
      omega

def memberReader : MemberReader Fields :=
  ⟨readMember, length_readMember⟩

def readItems (input : Bytes) : Except JsonFault (Manifest × Bytes) := do
  let (chunks, rest) ← readItem readNatural true input
  let (length, rest) ← readItem readNatural false rest
  let (chunkSize, rest) ← readItem readNatural false rest
  let rest ← closeList rest
  .ok (⟨chunks, length, chunkSize⟩, rest)

def readRecord (input : Bytes) : Except JsonFault (Manifest × Bytes) :=
  match nextByte? input with
  | none => .error .truncated
  | some (byte, rest) =>
    if byte = openBracket then readItems rest
    else if byte = openBrace then
      match memberReader.members (fun _ => none) true rest with
      | .error fault => .error fault
      | .ok (fields, rest) =>
        match ofFields? fields with
        | some manifest => .ok (manifest, rest)
        | none => .error .mismatched
    else .error (mismatch (byte :: rest))

def decode (bytes : Bytes) : Except JsonFault Manifest :=
  readDocument readRecord bytes

end Manifest

end ContentVault
