import ContentVault.Entry

/-!
# Fixity

A fixity check reads a value again and compares its digest and its size with
what was recorded of it.
-/

namespace ContentVault

open Digest (Digester)

inductive FixityFlag where
  | success
  | badChecksum
  | badSize
  deriving DecidableEq, Repr

def FixityFlag.name : FixityFlag → String
  | .success => "SUCCESS"
  | .badChecksum => "BAD_CHECKSUM"
  | .badSize => "BAD_SIZE"

/-- What was computed from a value, beside what was expected. -/
structure FixityResult where
  entry : Entry
  computedDigest : DigestUri
  computedSize : UInt64
  expectedDigest : DigestUri
  expectedSize : UInt64
  deriving DecidableEq

namespace FixityResult

/-- One flag for the digest and one for the size where they differ, or the flag of
success where neither does. -/
def status (result : FixityResult) : List FixityFlag :=
  if result.computedDigest ≠ result.expectedDigest then
    if result.computedSize ≠ result.expectedSize then [.badChecksum, .badSize]
    else [.badChecksum]
  else if result.computedSize ≠ result.expectedSize then [.badSize]
  else [.success]

def isSuccess (result : FixityResult) : Bool :=
  result.status.contains .success

def render (result : FixityResult) : String :=
  "fixity of " ++ result.entry.key.text ++ " at " ++ result.entry.location ++
    ": computed " ++ result.computedDigest.render ++
    " (" ++ toString result.computedSize.toNat ++ " bytes), expected " ++
    result.expectedDigest.render ++ " (" ++ toString result.expectedSize.toNat ++ " bytes) [" ++
    String.intercalate "," (result.status.map FixityFlag.name) ++ "]"

end FixityResult

/-- How many bytes are read at a time where they are only digested. -/
def digestSize : Nat := 8192

namespace Entry

/-- Reads the value and compares it with a digest and a size.  The digester is
cloned before anything is read, and nothing is reported of a value that could not
be read to its end. -/
def checkFixity (entry : Entry) (digest : DigestUri) (size : UInt64) (digester : Digester)
    (v : Vault) : Except VaultError FixityResult × Vault :=
  match digester.clone with
  | .error error => (.error error, v)
  | .ok digester =>
    match entry.openRead v with
    | (.error error, v) => (.error error, v)
    | (.ok source, v) =>
      let (drained, tracker) := source.drainTracked (.start digester) digestSize v.stores
      let v := { v with stores := drained.stores }
      match drained.failure with
      | some error => (.error (.fixityCheckFailed error), v)
      | none => (.ok ⟨entry, tracker.uri, tracker.count, digest, size⟩, v)

def checkReplicas (digest : DigestUri) (size : UInt64) (digester : Digester) :
    List Entry → Vault → List (Except VaultError FixityResult) × Vault
  | [], v => ([], v)
  | entry :: entries, v =>
    let (result, v) := entry.checkFixity digest size digester v
    let (results, v) := checkReplicas digest size digester entries v
    (result :: results, v)

end Entry

end ContentVault
