import ContentVault.Digest.Algorithm
import ContentVault.Hex
import ContentVault.Text.Blank

/-!
# Digest URIs

A digest together with the name of its algorithm, written
`urn:<algorithm>:<hex>`.  Reading is lenient about blanks around the text, the
leading `urn:`, the case of the digits and the spelling of a supported
algorithm; what is read is kept in one normal form.
-/

namespace ContentVault

open Digest (Algorithm)

structure DigestUri where
  algorithm : String
  hex : String
  deriving DecidableEq, Repr

namespace DigestUri

inductive Error where
  | missingAlgorithm
  | emptyDigest
  | invalidHex (error : Hex.Error)
  deriving DecidableEq, Repr

def Error.message : Error → String
  | .missingAlgorithm => "missing `<algorithm>:` prefix"
  | .emptyDigest => "empty digest value"
  | .invalidHex error => "digest value is not hex: " ++ error.message

/-- The canonical name of a supported algorithm; any other name in lower case,
where only ASCII letters have a case. -/
def normalName (algorithm : String) : String :=
  match Algorithm.ofSpelling? algorithm with
  | some known => known.name
  | none => String.ofList (algorithm.toList.map Char.toLower)

def ofDigest (algorithm : String) (digest : Bytes) : DigestUri :=
  ⟨normalName algorithm, Hex.encode digest⟩

def dropScheme : List Char → List Char
  | 'u' :: 'r' :: 'n' :: ':' :: rest => rest
  | text => text

def splitAtLastColon? (text : List Char) : Option (List Char × List Char) :=
  let back := text.reverse
  match back.dropWhile (· ≠ ':') with
  | [] => none
  | _ :: before => some (before.reverse, (back.takeWhile (· ≠ ':')).reverse)

def parse (text : String) : Except Error DigestUri :=
  match splitAtLastColon? (dropScheme (Text.trimBlanks text.toList)) with
  | none => .error .missingAlgorithm
  | some ([], _) => .error .missingAlgorithm
  | some (_, []) => .error .emptyDigest
  | some (algorithm, digits) =>
    match Hex.decode (String.ofList digits) with
    | .error error => .error (.invalidHex error)
    | .ok digest => .ok (ofDigest (String.ofList algorithm) digest)

def render (uri : DigestUri) : String :=
  s!"urn:{uri.algorithm}:{uri.hex}"

instance : ToString DigestUri := ⟨render⟩

end DigestUri

end ContentVault
