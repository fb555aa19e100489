import ContentVault.Proofs.UriGrammar

/-!
# The normal form of digest URIs

A digest URI is kept in one form.  Its text is read as the same URI again, whatever the name of
the algorithm looks like, so texts are read alike just if what is read of them is written alike.
-/

namespace ContentVault

open Digest (Algorithm)

/-- A hexadecimal digit is not a blank. -/
theorem Hex.IsDigit.not_isBlank {c : Char} (hc : IsDigit c) : ¬Text.isBlank c :=
  forall_ascii (P := fun c => IsDigit c → ¬Text.isBlank c) (by decide +kernel)
    (toNat_lt_of_isDigit hc) hc

theorem Hex.toList_encode_ne_nil {digest : Bytes} (hdigest : digest ≠ []) :
    (encode digest).toList ≠ [] := by
  cases digest with
  | nil => exact absurd rfl hdigest
  | cons byte digest =>
    rw [toList_encode]
    exact List.cons_ne_nil _ _

namespace DigestUri

theorem normalName_ne_empty {spelling : String} (hspelling : spelling ≠ "") :
    normalName spelling ≠ "" := by
  intro hempty
  cases halgorithm : Algorithm.ofSpelling? spelling with
  | some algorithm =>
    rw [normalName_of_ofSpelling? halgorithm] at hempty
    cases algorithm <;> exact absurd hempty (by decide)
  | none =>
    rw [normalName_of_none halgorithm, ← String.toList_inj, String.toList_ofList] at hempty
    exact hspelling (String.toList_eq_nil_iff.1 (List.map_eq_nil_iff.1 hempty))

theorem toList_render (uri : DigestUri) :
    uri.render.toList = "urn:".toList ++ (uri.algorithm.toList ++ ':' :: uri.hex.toList) := by
  rw [render]
  simp only [String.toList_append, List.append_assoc]
  rfl

variable {algorithm : String} {digest : Bytes}

/-- The text of a digest begins with the scheme and ends in a digit, so there are no blanks around
it. -/
theorem trims_render (hdigest : digest ≠ []) :
    Text.Trims (ofDigest algorithm digest).render.toList
      (ofDigest algorithm digest).render.toList where
  surrounded := by
    refine ⟨[], [], ?_, List.forall_mem_nil _, List.forall_mem_nil _⟩
    rw [List.nil_append, List.append_nil]
  head := by
    rw [toList_render]
    intro hne
    change ¬Text.isBlank 'u'
    decide
  last := by
    intro hne
    have hdigits := Hex.toList_encode_ne_nil hdigest
    have hends : (Hex.encode digest).toList <:+ (ofDigest algorithm digest).render.toList := by
      refine ⟨"urn:".toList ++ (normalName algorithm).toList ++ [':'], ?_⟩
      rw [toList_render, List.append_assoc, List.append_assoc]
      rfl
    rw [← hends.getLast hdigits]
    exact (Hex.isDigit_of_mem_encode (List.getLast_mem hdigits)).1.not_isBlank

/-- Only the digits stand behind the last colon, whatever the name of the algorithm looks like. -/
theorem denotes_render (halgorithm : algorithm ≠ "") (hdigest : digest ≠ []) :
    Denotes (ofDigest algorithm digest).render (normalName algorithm).toList
      (Hex.encode digest).toList where
  exists_parts := by
    refine ⟨_, ⟨_, trims_render hdigest, .inl (toList_render _)⟩, rfl, fun hmem => ?_⟩
    exact absurd (Hex.isDigit_of_mem_encode hmem).1 (by decide)
  name_ne := fun hnil => normalName_ne_empty halgorithm (String.toList_eq_nil_iff.1 hnil)
  value_ne := Hex.toList_encode_ne_nil hdigest
  isText := Hex.isText_encode digest

/-- The text of a digest URI is read as that URI. -/
theorem parse_render (halgorithm : algorithm ≠ "") (hdigest : digest ≠ []) :
    parse (ofDigest algorithm digest).render = .ok (ofDigest algorithm digest) := by
  rw [(denotes_render halgorithm hdigest).parse, String.ofList_toList, normalName_normalName,
    Hex.map_toLower_encode, String.ofList_toList]
  rfl

/-- All that is read of any text is the URI of a digest. -/
theorem exists_ofDigest_of_parse {text : String} {uri : DigestUri} (hparse : parse text = .ok uri) :
    ∃ algorithm digest, algorithm ≠ "" ∧ digest ≠ [] ∧ uri = ofDigest algorithm digest := by
  obtain ⟨name, value, hdenotes, rfl⟩ := exists_denotes hparse
  obtain ⟨digest, -, hencode⟩ := Hex.exists_decode hdenotes.isText
  refine ⟨String.ofList name, digest, fun hempty => ?_, ?_, ?_⟩
  · exact hdenotes.name_ne (String.ofList_eq_empty_iff.1 hempty)
  · rintro rfl
    exact hdenotes.value_ne (List.map_eq_nil_iff.1 (String.ofList_eq_empty_iff.1 hencode.symm))
  · rw [ofDigest, hencode]

theorem parse_render_of_parse {text : String} {uri : DigestUri} (hparse : parse text = .ok uri) :
    parse uri.render = .ok uri := by
  obtain ⟨algorithm, digest, halgorithm, hdigest, rfl⟩ := exists_ofDigest_of_parse hparse
  exact parse_render halgorithm hdigest

/-- Texts that are read as URIs are read alike just if these are written alike. -/
theorem eq_iff_render_eq {left right : String} {uri uri' : DigestUri}
    (hleft : parse left = .ok uri) (hright : parse right = .ok uri') :
    uri = uri' ↔ uri.render = uri'.render := by
  constructor
  · exact congrArg render
  · intro hrender
    have hok : Except.ok uri = Except.ok uri' :=
      calc
        Except.ok uri = parse uri.render := (parse_render_of_parse hleft).symm
        _ = parse uri'.render := congrArg parse hrender
        _ = Except.ok uri' := parse_render_of_parse hright
    exact Except.ok.inj hok

/-- The text that is written of what is read. -/
def normalText (text : String) : Except Error String :=
  (parse text).map render

theorem normalText_idempotent (text : String) :
    (normalText text).bind normalText = normalText text := by
  rw [normalText]
  cases hparse : parse text with
  | error error => rfl
  | ok uri =>
    calc
      normalText uri.render = (parse uri.render).map render := rfl
      _ = .ok uri.render := by rw [parse_render_of_parse hparse]; rfl

/-- The text of a digest URI is a normal form: it is read as that URI, so it tells URIs apart, and
what is written of a normal form is that normal form. -/
theorem normal_form :
    (∀ text uri, parse text = .ok uri → parse uri.render = .ok uri) ∧
    (∀ algorithm digest, algorithm ≠ "" → digest ≠ [] →
      parse (ofDigest algorithm digest).render = .ok (ofDigest algorithm digest)) ∧
    (∀ left right uri uri', parse left = .ok uri → parse right = .ok uri' →
      (uri = uri' ↔ uri.render = uri'.render)) ∧
    ∀ text, (normalText text).bind normalText = normalText text :=
  ⟨fun _ _ => parse_render_of_parse, fun _ _ => parse_render,
    fun _ _ _ _ => eq_iff_render_eq, normalText_idempotent⟩

/-- Of a name that looks like a URI itself, and of two spellings of one digest. -/
theorem normal_form_spellings :
    parse (ofDigest " urn:X y:" [0xab]).render = .ok (ofDigest " urn:X y:" [0xab]) ∧
    parse (DigestUri.mk "sha1" "ab").render = .ok ⟨"sha1", "ab"⟩ ∧
    (ofDigest "SHA-1" [0xab] = ofDigest "sha_1" [0xab] ↔
      (ofDigest "SHA-1" [0xab]).render = (ofDigest "sha_1" [0xab]).render) := by
  obtain ⟨hread, hwritten, hequal, -⟩ := normal_form
  have hfirst : parse "SHA-1:AB" = .ok (ofDigest "SHA-1" [0xab]) := by rfl
  have hsecond : parse " urn:sha_1:ab" = .ok (ofDigest "sha_1" [0xab]) := by rfl
  exact ⟨hwritten _ _ (by decide) (by decide), hread _ _ hfirst, hequal _ _ _ _ hfirst hsecond⟩

end DigestUri

end ContentVault
