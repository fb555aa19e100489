import ContentVault.Proofs.AlgorithmNames
import ContentVault.Proofs.FixityCheck
import Mathlib

/-!
# The grammar of digest URIs

Without the blanks around it and one leading `urn:`, a digest URI is the name of an algorithm,
the last colon and the digits of the digest.  What is read of it forgets the case of the digits
and how the algorithm was spelled, and nothing else.
-/

namespace ContentVault

open Digest (Algorithm Digester)

/-! ### The blanks around a text -/

namespace Text

/-- `body` is the text without the blanks at its ends. -/
structure Trims (text body : List Char) : Prop where
  surrounded : ∃ front back, text = front ++ body ++ back ∧ (∀ c ∈ front, isBlank c) ∧
    ∀ c ∈ back, isBlank c
  head : ∀ hne : body ≠ [], ¬isBlank (body.head hne)
  last : ∀ hne : body ≠ [], ¬isBlank (body.getLast hne)

theorem trims_trimBlanks (text : List Char) : Trims text (trimBlanks text) where
  surrounded := by
    refine ⟨text.takeWhile isBlank, (text.dropWhile isBlank).rtakeWhile isBlank, ?_,
      fun c => List.mem_takeWhile_imp, fun c => List.mem_rtakeWhile_imp⟩
    calc
      text = text.takeWhile isBlank ++ text.dropWhile isBlank :=
        List.takeWhile_append_dropWhile.symm
      _ = text.takeWhile isBlank ++ ((text.dropWhile isBlank).rdropWhile isBlank ++
          (text.dropWhile isBlank).rtakeWhile isBlank) := by
        rw [List.rdropWhile_append_rtakeWhile]
      _ = text.takeWhile isBlank ++ trimBlanks text ++
          (text.dropWhile isBlank).rtakeWhile isBlank := (List.append_assoc _ _ _).symm
  head := by
    intro hne
    have hbegins : trimBlanks text <+: text.dropWhile isBlank := List.rdropWhile_prefix isBlank _
    rw [hbegins.head hne, List.head_dropWhile_not isBlank]
    exact Bool.false_ne_true
  last := List.rdropWhile_last_not isBlank _

theorem Trims.eq {text body : List Char} (htrims : Trims text body) : trimBlanks text = body := by
  obtain ⟨front, back, rfl, hfront, hback⟩ := htrims.surrounded
  change (List.dropWhile isBlank (front ++ body ++ back)).rdropWhile isBlank = body
  rw [List.append_assoc, List.dropWhile_append_of_pos hfront]
  cases body with
  | nil =>
    -- Nothing but blanks: the first pass takes the back along with the front.
    rw [List.nil_append, List.dropWhile_eq_nil_iff.2 hback, List.rdropWhile_nil]
  | cons c body =>
    have hhead : ¬isBlank c := htrims.head (List.cons_ne_nil c body)
    have hback' : ∀ c ∈ back.reverse, isBlank c := fun c hc => hback c (List.mem_reverse.1 hc)
    rw [List.cons_append, List.dropWhile_cons_of_neg hhead, ← List.cons_append, List.rdropWhile,
      List.reverse_append, List.dropWhile_append_of_pos hback', ← List.rdropWhile]
    exact List.rdropWhile_eq_self_iff.2 htrims.last

end Text

/-! ### The case of a name -/

theorem toLower_eq_iff {c d : Char} (hd : d.isAlpha = false) : c.toLower = d ↔ c = d := by
  have hlower {c : Char} (hc : c.isAlpha = false) : c.toLower = c := by
    apply Char.toLower_eq_of_not_isUpper
    intro hupper
    rw [Char.isAlpha, hupper] at hc
    cases hc
  constructor
  · intro heq
    rw [← heq, Char.isAlpha_toLower_eq_isAlpha] at hd
    rwa [hlower hd] at heq
  · rintro rfl
    exact hlower hd

theorem map_toLower_map_toLower (chars : List Char) :
    (chars.map Char.toLower).map Char.toLower = chars.map Char.toLower := by
  rw [List.map_map]
  exact List.map_congr_left fun c _ => c.toLower_toLower_eq_toLower

namespace Digest.Algorithm

/-- The case of a spelling does not count. -/
theorem foldSpelling_map_toLower (spelling : List Char) :
    foldSpelling (spelling.map Char.toLower) = foldSpelling spelling := by
  have hkept : ((fun c => decide (c ≠ '-' ∧ c ≠ '_')) ∘ Char.toLower) =
      fun c => decide (c ≠ '-' ∧ c ≠ '_') := by
    funext c
    have hhyphen : c.toLower = '-' ↔ c = '-' := toLower_eq_iff rfl
    have hunderscore : c.toLower = '_' ↔ c = '_' := toLower_eq_iff rfl
    simp only [Function.comp_apply, ne_eq, hhyphen, hunderscore]
  rw [foldSpelling, List.filter_map, hkept, map_toLower_map_toLower]
  rfl

end Digest.Algorithm

namespace DigestUri

theorem normalName_of_none {spelling : String} (hspelling : Algorithm.ofSpelling? spelling = none) :
    normalName spelling = String.ofList (spelling.toList.map Char.toLower) := by
  rw [normalName, hspelling]

/-- The normal name is a spelling of the same algorithm. -/
theorem ofSpelling?_normalName (spelling : String) :
    Algorithm.ofSpelling? (normalName spelling) = Algorithm.ofSpelling? spelling := by
  cases hspelling : Algorithm.ofSpelling? spelling with
  | none =>
    -- Folding forgets the case, so a name of no algorithm is none in lower case either.
    rw [normalName_of_none hspelling, ← hspelling, Algorithm.ofSpelling?, Algorithm.ofSpelling?,
      String.toList_ofList, Algorithm.foldSpelling_map_toLower]
  | some algorithm => rw [normalName_of_ofSpelling? hspelling, ofSpelling?_name]

theorem normalName_normalName (spelling : String) :
    normalName (normalName spelling) = normalName spelling := by
  cases hspelling : Algorithm.ofSpelling? spelling with
  | none =>
    have hnormal := (ofSpelling?_normalName spelling).trans hspelling
    rw [normalName_of_none hnormal, normalName_of_none hspelling, String.toList_ofList,
      map_toLower_map_toLower]
  | some algorithm =>
    rw [normalName_of_ofSpelling? hspelling, normalName_of_ofSpelling? (ofSpelling?_name algorithm)]

/-- Both are names of one supported algorithm, or of none and differ only in case. -/
def SameName (left right : List Char) : Prop :=
  (∃ algorithm : Algorithm, algorithm.HasName left ∧ algorithm.HasName right) ∨
    (∀ algorithm : Algorithm, ¬algorithm.HasName left) ∧
      (∀ algorithm : Algorithm, ¬algorithm.HasName right) ∧
      left.map Char.toLower = right.map Char.toLower

theorem normalName_eq_iff {left right : List Char} :
    normalName (String.ofList left) = normalName (String.ofList right) ↔ SameName left right := by
  constructor
  · intro heq
    have hspelling := congrArg Algorithm.ofSpelling? heq
    rw [ofSpelling?_normalName, ofSpelling?_normalName] at hspelling
    cases hleft : Algorithm.ofSpelling? (String.ofList left) with
    | some algorithm =>
      rw [hleft] at hspelling
      exact .inl ⟨algorithm, Algorithm.ofSpelling?_eq_some_iff.1 hleft,
        Algorithm.ofSpelling?_eq_some_iff.1 hspelling.symm⟩
    | none =>
      rw [hleft] at hspelling
      rw [normalName_of_none hleft, normalName_of_none hspelling.symm, String.toList_ofList,
        String.toList_ofList, String.ofList_inj] at heq
      exact .inr ⟨Algorithm.ofSpelling?_eq_none_iff.1 hleft,
        Algorithm.ofSpelling?_eq_none_iff.1 hspelling.symm, heq⟩
  · rintro (⟨algorithm, hleft, hright⟩ | ⟨hleft, hright, heq⟩)
    · rw [normalName_of_ofSpelling? (Algorithm.ofSpelling?_eq_some_iff.2 hleft),
        normalName_of_ofSpelling? (Algorithm.ofSpelling?_eq_some_iff.2 hright)]
    · rw [normalName_of_none (Algorithm.ofSpelling?_eq_none_iff.2 hleft),
        normalName_of_none (Algorithm.ofSpelling?_eq_none_iff.2 hright), String.toList_ofList,
        String.toList_ofList, heq]

/-! ### The parts of a text -/

/-- The text without blanks around it and without one leading `urn:`. -/
def Leaves (text : String) (rest : List Char) : Prop :=
  ∃ body, Text.Trims text.toList body ∧
    (body = "urn:".toList ++ rest ∨ ¬"urn:".toList <+: body ∧ rest = body)

theorem dropScheme_append (rest : List Char) : dropScheme ("urn:".toList ++ rest) = rest := rfl

theorem dropScheme_of_not_prefix {body : List Char} (hnot : ¬"urn:".toList <+: body) :
    dropScheme body = body := by
  fun_cases dropScheme body with
  | case1 rest => exact absurd (List.prefix_append "urn:".toList rest) hnot
  | case2 => rfl

theorem leaves_iff {text : String} {rest : List Char} :
    Leaves text rest ↔ rest = dropScheme (Text.trimBlanks text.toList) := by
  constructor
  · rintro ⟨body, htrims, rfl | ⟨hnot, rfl⟩⟩
    · rw [htrims.eq, dropScheme_append]
    · rw [htrims.eq, dropScheme_of_not_prefix hnot]
  · rintro rfl
    refine ⟨_, Text.trims_trimBlanks _, ?_⟩
    by_cases hbegins : "urn:".toList <+: Text.trimBlanks text.toList
    · obtain ⟨rest, hrest⟩ := hbegins
      exact .inl (by rw [← hrest, dropScheme_append])
    · exact .inr ⟨hbegins, dropScheme_of_not_prefix hbegins⟩

/-- What stands before and after the last colon. -/
structure Parts (rest name value : List Char) : Prop where
  eq : rest = name ++ ':' :: value
  notMem : ':' ∉ value

theorem exists_parts {rest : List Char} (hmem : ':' ∈ rest) :
    ∃ name value, Parts rest name value := by
  obtain ⟨back, front, heq, hback⟩ := List.eq_append_cons_of_mem (List.mem_reverse.2 hmem)
  refine ⟨front.reverse, back.reverse, ?_, fun hmem => hback (List.mem_reverse.1 hmem)⟩
  rw [← List.reverse_reverse rest, heq, List.reverse_append, List.reverse_cons, List.append_assoc]
  rfl

/-- What the search for the last colon passes over. -/
theorem passes_of_notMem {chars : List Char} (hchars : ':' ∉ chars) :
    ∀ c ∈ chars.reverse, decide (c ≠ ':') = true := by
  intro c hc
  rw [decide_eq_true_eq]
  rintro rfl
  exact hchars (List.mem_reverse.1 hc)

theorem splitAtLastColon?_of_parts {rest name value : List Char} (hparts : Parts rest name value) :
    splitAtLastColon? rest = some (name, value) := by
  have hvalue := passes_of_notMem hparts.notMem
  have hback : rest.reverse = value.reverse ++ ':' :: name.reverse := by
    rw [hparts.eq, List.reverse_append, List.reverse_cons, List.append_assoc]
    rfl
  simp only [splitAtLastColon?, hback]
  rw [List.dropWhile_append_of_pos hvalue, List.takeWhile_append_of_pos hvalue]
  simp

theorem splitAtLastColon?_of_notMem {rest : List Char} (hrest : ':' ∉ rest) :
    splitAtLastColon? rest = none := by
  simp only [splitAtLastColon?, List.dropWhile_eq_nil_iff.2 (passes_of_notMem hrest)]

theorem splitAtLastColon?_eq_some_iff {rest name value : List Char} :
    splitAtLastColon? rest = some (name, value) ↔ Parts rest name value := by
  constructor
  · intro hsplit
    by_cases hmem : ':' ∈ rest
    · obtain ⟨name', value', hparts⟩ := exists_parts hmem
      cases hsplit.symm.trans (splitAtLastColon?_of_parts hparts)
      exact hparts
    · cases hsplit.symm.trans (splitAtLastColon?_of_notMem hmem)
  · exact splitAtLastColon?_of_parts

/-! ### What is read -/

/-- What can be left of a text, and the answer to it. -/
inductive Answers (rest : List Char) : Except Error DigestUri → Prop where
  | colonless (hrest : ':' ∉ rest) : Answers rest (.error .missingAlgorithm)
  | nameless {value} (hparts : Parts rest [] value) : Answers rest (.error .missingAlgorithm)
  | digitless {name} (hparts : Parts rest name []) (hname : name ≠ []) :
      Answers rest (.error .emptyDigest)
  | illFormed {name value} (hparts : Parts rest name value) (hname : name ≠ []) (hvalue : value ≠ [])
      (hillFormed : ¬Hex.IsText value) (error : Hex.Error) : Answers rest (.error (.invalidHex error))
  | wellFormed {name value} (hparts : Parts rest name value) (hname : name ≠ []) (hvalue : value ≠ [])
      (htext : Hex.IsText value) :
      Answers rest (.ok ⟨normalName (String.ofList name), String.ofList (value.map Char.toLower)⟩)

section Parse

variable {text : String} {rest name value : List Char}

theorem parse_of_colonless (hleaves : Leaves text rest) (hrest : ':' ∉ rest) :
    parse text = .error .missingAlgorithm := by
  rw [parse, ← leaves_iff.1 hleaves, splitAtLastColon?_of_notMem hrest]

theorem parse_of_nameless (hleaves : Leaves text rest) (hparts : Parts rest [] value) :
    parse text = .error .missingAlgorithm := by
  rw [parse, ← leaves_iff.1 hleaves, splitAtLastColon?_of_parts hparts]

theorem parse_of_digitless (hleaves : Leaves text rest) (hparts : Parts rest name [])
    (hname : name ≠ []) : parse text = .error .emptyDigest := by
  rw [parse, ← leaves_iff.1 hleaves, splitAtLastColon?_of_parts hparts]
  cases name with
  | nil => exact absurd rfl hname
  | cons c name => rfl

/-- With a name and digits, all that can fail is reading the digits. -/
theorem parse_of_parts (hleaves : Leaves text rest) (hparts : Parts rest name value)
    (hname : name ≠ []) (hvalue : value ≠ []) :
    parse text = match Hex.decode (String.ofList value) with
      | .error error => .error (.invalidHex error)
      | .ok digest => .ok (ofDigest (String.ofList name) digest) := by
  rw [parse, ← leaves_iff.1 hleaves, splitAtLastColon?_of_parts hparts]
  cases name with
  | nil => exact absurd rfl hname
  | cons c name =>
    cases value with
    | nil => exact absurd rfl hvalue
    | cons d value => rfl

theorem parse_of_illFormed (hleaves : Leaves text rest) (hparts : Parts rest name value)
    (hname : name ≠ []) (hvalue : value ≠ []) (hillFormed : ¬Hex.IsText value) :
    ∃ error, parse text = .error (.invalidHex error) := by
  rw [parse_of_parts hleaves hparts hname hvalue]
  cases hdecode : Hex.decode (String.ofList value) with
  | error error => exact ⟨error, rfl⟩
  | ok digest => exact absurd (Hex.decode_eq_ok_iff.1 hdecode).1 hillFormed

theorem parse_of_wellFormed (hleaves : Leaves text rest) (hparts : Parts rest name value)
    (hname : name ≠ []) (hvalue : value ≠ []) (htext : Hex.IsText value) :
    parse text =
      .ok ⟨normalName (String.ofList name), String.ofList (value.map Char.toLower)⟩ := by
  obtain ⟨digest, hdecode, hencode⟩ := Hex.exists_decode htext
  rw [parse_of_parts hleaves hparts hname hvalue, hdecode, ← hencode]
  rfl

theorem answers_parse (hleaves : Leaves text rest) : Answers rest (parse text) := by
  by_cases hmem : ':' ∈ rest
  · obtain ⟨name, value, hparts⟩ := exists_parts hmem
    by_cases hname : name = []
    · subst hname
      rw [parse_of_nameless hleaves hparts]
      exact .nameless hparts
    · by_cases hvalue : value = []
      · subst hvalue
        rw [parse_of_digitless hleaves hparts hname]
        exact .digitless hparts hname
      · by_cases htext : Hex.IsText value
        · rw [parse_of_wellFormed hleaves hparts hname hvalue htext]
          exact .wellFormed hparts hname hvalue htext
        · obtain ⟨error, hparse⟩ := parse_of_illFormed hleaves hparts hname hvalue htext
          rw [hparse]
          exact .illFormed hparts hname hvalue htext error
  · rw [parse_of_colonless hleaves hmem]
    exact .colonless hmem

/-- The faults of a text, in the order in which they are looked for, and what is read of a text
without them. -/
structure Classified (text : String) (rest : List Char) : Prop where
  missingAlgorithm_iff : parse text = .error .missingAlgorithm ↔
    ':' ∉ rest ∨ ∃ value, Parts rest [] value
  emptyDigest_iff : parse text = .error .emptyDigest ↔ ∃ name, Parts rest name [] ∧ name ≠ []
  invalidHex_iff : (∃ error, parse text = .error (.invalidHex error)) ↔
    ∃ name value, Parts rest name value ∧ name ≠ [] ∧ value ≠ [] ∧ ¬Hex.IsText value
  ok_iff : ∀ uri, parse text = .ok uri ↔
    ∃ name value, Parts rest name value ∧ name ≠ [] ∧ value ≠ [] ∧ Hex.IsText value ∧
      uri = ⟨normalName (String.ofList name), String.ofList (value.map Char.toLower)⟩

theorem classified (hleaves : Leaves text rest) : Classified text rest := by
  -- No two shapes of the text share an answer, but for the two without a name.
  have hanswers := answers_parse hleaves
  constructor
  case missingAlgorithm_iff =>
    constructor
    · intro hparse
      rw [hparse] at hanswers
      cases hanswers with
      | colonless hrest => exact .inl hrest
      | nameless hparts => exact .inr ⟨_, hparts⟩
    · rintro (hrest | ⟨value, hparts⟩)
      · exact parse_of_colonless hleaves hrest
      · exact parse_of_nameless hleaves hparts
  case emptyDigest_iff =>
    constructor
    · intro hparse
      rw [hparse] at hanswers
      cases hanswers with
      | digitless hparts hname => exact ⟨_, hparts, hname⟩
    · rintro ⟨name, hparts, hname⟩
      exact parse_of_digitless hleaves hparts hname
  case invalidHex_iff =>
    constructor
    · rintro ⟨error, hparse⟩
      rw [hparse] at hanswers
      cases hanswers with
      | illFormed hparts hname hvalue hillFormed =>
        exact ⟨_, _, hparts, hname, hvalue, hillFormed⟩
    · rintro ⟨name, value, hparts, hname, hvalue, hillFormed⟩
      exact parse_of_illFormed hleaves hparts hname hvalue hillFormed
  case ok_iff =>
    intro uri
    constructor
    · intro hparse
      rw [hparse] at hanswers
      cases hanswers with
      | wellFormed hparts hname hvalue htext => exact ⟨_, _, hparts, hname, hvalue, htext, rfl⟩
    · rintro ⟨name, value, hparts, hname, hvalue, htext, rfl⟩
      exact parse_of_wellFormed hleaves hparts hname hvalue htext

end Parse

/-- The text is a digest URI with this name of an algorithm and these digits. -/
structure Denotes (text : String) (name value : List Char) : Prop where
  exists_parts : ∃ rest, Leaves text rest ∧ Parts rest name value
  name_ne : name ≠ []
  value_ne : value ≠ []
  isText : Hex.IsText value

theorem denotes_iff {text : String} {name value : List Char} : Denotes text name value ↔
    splitAtLastColon? (dropScheme (Text.trimBlanks text.toList)) = some (name, value) ∧
      name ≠ [] ∧ value ≠ [] ∧ Hex.IsText value := by
  constructor
  · rintro ⟨⟨rest, hleaves, hparts⟩, hname, hvalue, htext⟩
    rw [← leaves_iff.1 hleaves, splitAtLastColon?_eq_some_iff]
    exact ⟨hparts, hname, hvalue, htext⟩
  · rintro ⟨hsplit, hname, hvalue, htext⟩
    exact ⟨⟨_, leaves_iff.2 rfl, splitAtLastColon?_eq_some_iff.1 hsplit⟩, hname, hvalue, htext⟩

instance (text : String) (name value : List Char) : Decidable (Denotes text name value) :=
  decidable_of_iff _ denotes_iff.symm

theorem Denotes.parse {text : String} {name value : List Char} (hdenotes : Denotes text name value) :
    parse text =
      .ok ⟨normalName (String.ofList name), String.ofList (value.map Char.toLower)⟩ := by
  obtain ⟨rest, hleaves, hparts⟩ := hdenotes.exists_parts
  exact parse_of_wellFormed hleaves hparts hdenotes.name_ne hdenotes.value_ne hdenotes.isText

/-- Texts are read alike if their digits differ at most in case and their names are the same. -/
theorem Denotes.parse_eq_iff {left right : String} {name value name' value' : List Char}
    (hleft : Denotes left name value) (hright : Denotes right name' value') :
    DigestUri.parse left = DigestUri.parse right ↔
      value.map Char.toLower = value'.map Char.toLower ∧ SameName name name' := by
  rw [hleft.parse, hright.parse, Except.ok.injEq, DigestUri.mk.injEq, normalName_eq_iff,
    String.ofList_inj, and_comm]

theorem exists_denotes {text : String} {uri : DigestUri} (hparse : parse text = .ok uri) :
    ∃ name value, Denotes text name value ∧
      uri = ⟨normalName (String.ofList name), String.ofList (value.map Char.toLower)⟩ := by
  have hleaves := leaves_iff.2 (rfl : dropScheme (Text.trimBlanks text.toList) = _)
  obtain ⟨name, value, hparts, hname, hvalue, htext, heq⟩ :=
    ((classified hleaves).ok_iff uri).1 hparse
  exact ⟨name, value, ⟨⟨_, hleaves, hparts⟩, hname, hvalue, htext⟩, heq⟩

theorem normalName_algorithm_of_parse {text : String} {uri : DigestUri}
    (hparse : parse text = .ok uri) : normalName uri.algorithm = uri.algorithm := by
  obtain ⟨name, value, -, rfl⟩ := exists_denotes hparse
  simp only [normalName_normalName]

end DigestUri

/-! ### Checking against what is read -/

/-- What a check computes is named for the algorithm of the digester, so if the expected URI is too,
only their digits can differ. -/
theorem Entry.badChecksum_iff_of_checkFixity {entry : Entry} {expected : DigestUri} {size : UInt64}
    {algorithm : Algorithm} {prefed : List Bytes} {v : Vault} {result : FixityResult}
    (hname : expected.algorithm = algorithm.name)
    (hresult : (entry.checkFixity expected size ((Digester.start algorithm).fed prefed) v).1 =
      .ok result) :
    .badChecksum ∈ result.status ↔ result.computedDigest.hex ≠ expected.hex := by
  cases hopen : entry.openRead v with
  | mk opened v' =>
    cases opened with
    | error error =>
      rw [checkFixity_of_openRead_error expected size hopen] at hresult
      cases hresult
    | ok source =>
      rw [checkFixity_of_openRead expected size Nat.one_pos hopen] at hresult
      split at hresult
      · cases hresult
      · cases hresult
        have hcanonical : DigestUri.normalName algorithm.name = algorithm.name :=
          DigestUri.normalName_of_ofSpelling? (DigestUri.ofSpelling?_name algorithm)
        rw [FixityResult.badChecksum_mem_status_iff]
        apply not_congr
        obtain ⟨name, hex⟩ := expected
        dsimp only at hname ⊢
        rw [hname, DigestUri.ofDigest, hcanonical, DigestUri.mk.injEq, eq_self, true_and]

namespace DigestUri

/-- A text is answered as its parts say, texts are read alike if they spell the same parts, and a
check against what was read depends on the digits alone. -/
theorem reads_grammar :
    (∀ text, ∃ rest, (∀ other, Leaves text other ↔ other = rest) ∧ Classified text rest) ∧
    (∀ left right name value name' value',
      Denotes left name value → Denotes right name' value' →
        (parse left = parse right ↔
          value.map Char.toLower = value'.map Char.toLower ∧ SameName name name')) ∧
    ∀ text uri digester, parse text = .ok uri →
      Digester.ofSpelling? uri.algorithm = some digester →
        digester.name = uri.algorithm ∧
        ∀ (entry : Entry) size prefed v result,
          (entry.checkFixity uri size (digester.fed prefed) v).1 = .ok result →
            (.badChecksum ∈ result.status ↔ result.computedDigest.hex ≠ uri.hex) := by
  refine ⟨fun text => ?_, fun left right name value name' value' hleft hright =>
    hleft.parse_eq_iff hright, fun text uri digester hparse hdigester => ?_⟩
  · exact ⟨_, fun _ => leaves_iff, classified (leaves_iff.2 rfl)⟩
  · have hname : digester.name = uri.algorithm :=
      (Digester.name_of_ofSpelling? hdigester).trans (normalName_algorithm_of_parse hparse)
    refine ⟨hname, fun entry size prefed v result hresult => ?_⟩
    obtain ⟨algorithm, -, rfl⟩ := Option.map_eq_some_iff.1 hdigester
    exact Entry.badChecksum_iff_of_checkFixity hname.symm hresult

def oneFileVault : Vault :=
  .ofTree ((FileTree.empty.put ["", "v"] .directory).put ["", "v", "k"] (.file [1, 2, 3]))

/-- The spellings of SHA-1 are all the same, those of an unsupported algorithm are not, and the file
is checked for its digits alone. -/
theorem reads_grammar_oneFileVault :
    let entry : Entry := ⟨.direct 0 ⟨"v"⟩, ⟨"k"⟩⟩
    parse " urn:SHA-1:AB" = parse "sha_1:aB\n" ∧ parse "x-a:00" ≠ parse "urn:XA:00" ∧
      ∃ result, (entry.checkFixity ⟨"sha1", "ab"⟩ 3 ((Digester.start .sha1).fed []) oneFileVault).1 =
        .ok result ∧ (.badChecksum ∈ result.status ↔ result.computedDigest.hex ≠ "ab") := by
  intro entry
  obtain ⟨-, hsame, hcheck⟩ := reads_grammar
  have hfirst : Denotes " urn:SHA-1:AB" "SHA-1".toList "AB".toList := by decide +kernel
  have hsecond : Denotes "sha_1:aB\n" "sha_1".toList "aB".toList := by decide +kernel
  have hthird : Denotes "x-a:00" "x-a".toList "00".toList := by decide +kernel
  have hfourth : Denotes "urn:XA:00" "XA".toList "00".toList := by decide +kernel
  refine ⟨(hsame _ _ _ _ _ _ hfirst hsecond).2 ⟨by decide, .inl ⟨.sha1, by decide, by decide⟩⟩,
    fun heq => ?_, ?_⟩
  · obtain ⟨-, ⟨algorithm, hname, -⟩ | ⟨-, -, hcase⟩⟩ := (hsame _ _ _ _ _ _ hthird hfourth).1 heq
    · cases algorithm <;> exact absurd hname (by decide)
    · exact absurd hcase (by decide)
  · have hopen : (Entry.mk (.direct 0 ⟨"v"⟩) ⟨"k"⟩).openRead oneFileVault =
        (.ok (.file [1, 2, 3]), oneFileVault) := by rfl
    have hresult := Entry.checkFixity_of_openRead ⟨"sha1", "ab"⟩ 3 Nat.one_pos hopen .sha1 []
    rw [((Source.Promises.file [1, 2, 3] oneFileVault.stores).drain Nat.one_pos).2] at hresult
    have hparse : parse " urn:SHA-1:AB" = .ok ⟨"sha1", "ab"⟩ := by rfl
    exact ⟨_, hresult, (hcheck _ _ _ hparse rfl).2 entry 3 [] oneFileVault _ hresult⟩

end DigestUri

end ContentVault
