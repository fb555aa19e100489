/-!
# Byte strings

Values, chunks and files are finite lists of bytes.  Text enters and leaves
them in UTF-8; reading back the bytes of a text gives that text.
-/

namespace ContentVault

abbrev Bytes := List UInt8

namespace Bytes

def ofText (text : String) : Bytes :=
  text.toByteArray.data.toList

/-- The text that the bytes spell in UTF-8, if they spell one. -/
def toText? (bytes : Bytes) : Option String :=
  String.fromUTF8? ⟨bytes.toArray⟩

@[simp]
theorem toText?_ofText (text : String) : toText? (ofText text) = some text := by
  simp only [toText?, ofText, String.fromUTF8?, Array.toArray_toList]
  exact dif_pos text.isValidUTF8

@[simp]
theorem ofText_append (left right : String) :
    ofText (left ++ right) = ofText left ++ ofText right := by
  simp [ofText]

end Bytes

end ContentVault
