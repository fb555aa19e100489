import ContentVault.Digest.Md5
import ContentVault.Digest.Sha1
import ContentVault.Digest.Sha256
import ContentVault.Digest.Sha512
import ContentVault.Digest.Blake2b

/-!
# Digest algorithms

The supported hash functions and the spellings under which they are known.  A
spelling counts without its hyphens and underscores and in either case.
-/

namespace ContentVault.Digest

inductive Algorithm where
  | md5
  | sha1
  | sha256
  | sha512
  | blake2b
  deriving DecidableEq, Repr

namespace Algorithm

/-- The canonical name, as it stands in digest URIs. -/
def name : Algorithm → String
  | .md5 => "md5"
  | .sha1 => "sha1"
  | .sha256 => "sha256"
  | .sha512 => "sha512"
  | .blake2b => "blake2b"

/-- What counts of a spelling: its characters in lower case, without hyphens
and underscores.  Only the case of ASCII letters is folded. -/
def foldSpelling (spelling : List Char) : List Char :=
  (spelling.filter fun c => c ≠ '-' ∧ c ≠ '_').map Char.toLower

def ofSpelling? (spelling : String) : Option Algorithm :=
  match String.ofList (foldSpelling spelling.toList) with
  | "md5" => some .md5
  | "sha1" => some .sha1
  | "sha256" => some .sha256
  | "sha512" => some .sha512
  | "blake2b" => some .blake2b
  | "blake2b512" => some .blake2b
  | _ => none

def blockHash : Algorithm → BlockHash
  | .md5 => Md5.blockHash
  | .sha1 => Sha1.blockHash
  | .sha256 => Sha256.blockHash
  | .sha512 => Sha512.blockHash
  | .blake2b => Blake2b.blockHash

def hash (algorithm : Algorithm) (message : Bytes) : Bytes :=
  algorithm.blockHash.hash message

end Algorithm

end ContentVault.Digest
