import ContentVault.Digest.Digester
import ContentVault.DigestUri
import ContentVault.Proofs.HexText

/-!
# The names of digest algorithms

A supported algorithm goes by all the names that fold to one of its spellings, its canonical
name among them.  A digest URI and a digester give the canonical name for each of these.
-/

namespace ContentVault

open Digest (Algorithm Digester)

namespace Digest.Algorithm

def spellings : Algorithm → List String
  | .md5 => ["md5"]
  | .sha1 => ["sha1"]
  | .sha256 => ["sha256"]
  | .sha512 => ["sha512"]
  | .blake2b => ["blake2b", "blake2b512"]

def HasName (algorithm : Algorithm) (name : List Char) : Prop :=
  String.ofList (foldSpelling name) ∈ algorithm.spellings

instance (algorithm : Algorithm) : DecidablePred algorithm.HasName := fun name =>
  inferInstanceAs (Decidable (String.ofList (foldSpelling name) ∈ algorithm.spellings))

theorem ofSpelling?_eq_some_iff {name : List Char} {algorithm : Algorithm} :
    ofSpelling? (String.ofList name) = some algorithm ↔ algorithm.HasName name := by
  rw [ofSpelling?, String.toList_ofList, HasName]
  generalize String.ofList (foldSpelling name) = folded
  constructor
  · intro heq
    split at heq <;> cases heq <;> simp [spellings]
  · intro hmem
    cases algorithm with
    | blake2b =>
      rcases List.mem_cons.1 hmem with rfl | hmem
      · rfl
      · rw [List.mem_singleton.1 hmem]
        rfl
    | _ =>
      rw [List.mem_singleton.1 hmem]
      rfl

theorem ofSpelling?_eq_none_iff {name : List Char} :
    ofSpelling? (String.ofList name) = none ↔ ∀ algorithm : Algorithm, ¬algorithm.HasName name := by
  rw [Option.eq_none_iff_forall_ne_some]
  exact forall_congr' fun _ => not_congr ofSpelling?_eq_some_iff

end Digest.Algorithm

namespace DigestUri

variable {spelling : String} {algorithm : Algorithm}

theorem normalName_of_ofSpelling? (hspelling : Algorithm.ofSpelling? spelling = some algorithm) :
    normalName spelling = algorithm.name := by
  rw [normalName, hspelling]

/-- The canonical name of an algorithm is one of its spellings. -/
theorem ofSpelling?_name (algorithm : Algorithm) :
    Algorithm.ofSpelling? algorithm.name = some algorithm := by
  cases algorithm <;> rfl

theorem ofSpelling?_ofDigest (hspelling : Algorithm.ofSpelling? spelling = some algorithm)
    (digest : Bytes) :
    Algorithm.ofSpelling? (ofDigest spelling digest).algorithm = some algorithm := by
  rw [ofDigest, normalName_of_ofSpelling? hspelling, ofSpelling?_name]

/-- However the algorithm was spelled, the URI is that of a digest if it has its bytes. -/
theorem ofDigest_eq_iff (hspelling : Algorithm.ofSpelling? spelling = some algorithm)
    {left right : Bytes} : ofDigest spelling left = ofDigest algorithm.name right ↔ left = right := by
  rw [ofDigest, ofDigest, normalName_of_ofSpelling? hspelling,
    normalName_of_ofSpelling? (ofSpelling?_name algorithm)]
  constructor
  · exact fun heq => Hex.encode_injective (congrArg DigestUri.hex heq)
  · rintro rfl
    rfl

end DigestUri

/-- A digester goes by the same name as the digest URIs of its algorithm. -/
theorem Digest.Digester.name_of_ofSpelling? {spelling : String} {digester : Digester}
    (hdigester : ofSpelling? spelling = some digester) :
    digester.name = DigestUri.normalName spelling := by
  obtain ⟨algorithm, halgorithm, rfl⟩ := Option.map_eq_some_iff.1 hdigester
  exact (DigestUri.normalName_of_ofSpelling? halgorithm).symm

end ContentVault
