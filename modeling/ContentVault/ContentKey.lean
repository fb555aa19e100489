/-!
# Content keys

A value has one content key.  In a chunked store it occupies one key for its
manifest, the data key, and beneath it one key for each chunk.
-/

namespace ContentVault

/-- The key of a value within a backend. -/
structure ContentKey where
  text : String
  deriving DecidableEq, Repr

instance : ToString ContentKey := ⟨ContentKey.text⟩

/-- The key under which a chunked backend keeps the manifest of a value. -/
def ContentKey.dataKey (key : ContentKey) : String :=
  key.text ++ "-data"

def chunkKey (base : String) (index : UInt64) : String :=
  base ++ "/" ++ toString index.toNat

end ContentVault
