import ContentVault.ContentKey
import ContentVault.Manifest
import Std.Data.ExtTreeMap

/-!
# Chunk stores

A chunk store maps keys to byte strings and serves three calls: it loads, stores
or removes the value of one key.  A fault plan may refuse any single call, and a
refused call changes nothing.  Every call is kept in the history, refused or not.
-/

namespace ContentVault

abbrev Contents := Std.ExtTreeMap String Bytes

inductive Call where
  | load (key : String)
  | store (key : String) (value : Bytes)
  | remove (key : String)
  deriving DecidableEq, Repr

namespace Call

def key : Call → String
  | .load key => key
  | .store key _ => key
  | .remove key => key

def apply : Call → Contents → Contents
  | .load _, contents => contents
  | .store key value, contents => contents.insert key value
  | .remove key, contents => contents.erase key

/-- The call and its key, and for a store the length of the value. -/
def render : Call → String
  | .load key => s!"load {key}"
  | .store key value => s!"store {key} {value.length}"
  | .remove key => s!"remove {key}"

end Call

/-- How many calls of each kind were made under a fault plan. -/
structure Tally where
  loads : Nat := 0
  stores : Nat := 0
  removes : Nat := 0
  deriving DecidableEq, Repr

def Tally.count (tally : Tally) : Call → Tally
  | .load _ => { tally with loads := tally.loads + 1 }
  | .store _ _ => { tally with stores := tally.stores + 1 }
  | .remove _ => { tally with removes := tally.removes + 1 }

/-- Decides of each call, from the calls made before it, whether and how it is
refused. -/
abbrev FaultPlan := Tally → Call → Option StorageError

def FaultPlan.none : FaultPlan := fun _ _ => Option.none

structure Event where
  call : Call
  served : Bool
  deriving DecidableEq, Repr

structure ChunkStore where
  contents : Contents := ∅
  plan : FaultPlan := FaultPlan.none
  tally : Tally := {}
  /-- The calls made so far, the last one first. -/
  history : List Event := []

namespace ChunkStore

instance : Inhabited ChunkStore := ⟨{}⟩

/-- Makes a call: serves it, or refuses it as the plan says. -/
def request (call : Call) (s : ChunkStore) : Option StorageError × ChunkStore :=
  let refusal := s.plan s.tally call
  (refusal,
    { s with
      contents := if refusal.isNone then call.apply s.contents else s.contents
      tally := s.tally.count call
      history := ⟨call, refusal.isNone⟩ :: s.history })

def load (key : String) (s : ChunkStore) : Except StorageError (Option Bytes) × ChunkStore :=
  match s.request (.load key) with
  | (some error, s) => (.error error, s)
  | (none, s) => (.ok s.contents[key]?, s)

def store (key : String) (value : Bytes) (s : ChunkStore) :
    Except StorageError Unit × ChunkStore :=
  match s.request (.store key value) with
  | (some error, s) => (.error error, s)
  | (none, s) => (.ok (), s)

/-- Takes its value from a key, and tells whether it had one. -/
def remove (key : String) (s : ChunkStore) : Except StorageError Bool × ChunkStore :=
  match s.request (.remove key) with
  | (some error, after) => (.error error, after)
  | (none, after) => (.ok (s.contents.contains key), after)

def setPlan (plan : FaultPlan) (s : ChunkStore) : ChunkStore :=
  { s with plan := plan, tally := {} }

def loadManifest (base : String) (s : ChunkStore) :
    Except StorageError (Option Manifest) × ChunkStore :=
  match s.load base with
  | (.error error, s) => (.error error, s)
  | (.ok none, s) => (.ok none, s)
  | (.ok (some bytes), s) =>
    match Manifest.decode bytes with
    | .error fault => (.error (.manifest fault), s)
    | .ok manifest => (.ok (some manifest), s)

def storeManifest (base : String) (manifest : Manifest) (s : ChunkStore) :
    Except StorageError Unit × ChunkStore :=
  s.store base manifest.encode

/-- The values, in ascending order of their keys, of every key that a served
call has stored and that has a value now. -/
def written (s : ChunkStore) : List (String × Bytes) :=
  let stored : List String := s.history.filterMap fun event =>
    match event.call with
    | .store key _ => if event.served then some key else none
    | _ => none
  let keys : Std.ExtTreeMap String Unit := .ofList (stored.map fun key => (key, ()))
  keys.toList.filterMap fun (key, _) => s.contents[key]?.map fun value => (key, value)

end ChunkStore

/-- The size of the chunks that values are cut into; it is never zero. -/
structure ChunkSize where
  bytes : UInt64
  bytes_ne_zero : bytes ≠ 0
  deriving DecidableEq, Repr

namespace ChunkSize

/-- The size in use where none is given. -/
def standard : ChunkSize := ⟨1048576, by decide⟩

def ofWord? (bytes : UInt64) : Option ChunkSize :=
  if h : bytes ≠ 0 then some ⟨bytes, h⟩ else none

def toNat (size : ChunkSize) : Nat := size.bytes.toNat

/-- A buffer for one chunk can be asked for.  No allocation is larger than `2 ^ 63 - 1` bytes. -/
def IsAllocatable (size : ChunkSize) : Prop := size.toNat < 0x8000000000000000

instance (size : ChunkSize) : Decidable size.IsAllocatable :=
  inferInstanceAs (Decidable (_ < _))

theorem toNat_pos (size : ChunkSize) : 0 < size.toNat :=
  Nat.pos_of_ne_zero fun hzero => size.bytes_ne_zero (UInt64.toNat_inj.1 hzero)

end ChunkSize

end ContentVault
