import ContentVault.Proofs.ReaderAcceptance

/-!
# Chunks that a manifest admits

A manifest admits chunks of one size, and a shorter one in the last place.  Whatever the
chunks are, each is a piece of all of them together, and there are at most as many bytes as
the manifest has room for, so that their number is told by its machine word.
-/

namespace ContentVault

/-- The chunks have, in order, the lengths that the manifest admits. -/
structure Manifest.AdmitsAll (manifest : Manifest) (chunks : List Bytes) : Prop where
  length_le : chunks.length ≤ manifest.chunks.toNat
  admits : ∀ index (hindex : index < chunks.length), manifest.Admits index chunks[index].length

theorem Contents.BeginsWith.admitsAll {contents : Contents} {base : String} {manifest : Manifest}
    {chunks : List Bytes} (hchunks : contents.BeginsWith base manifest chunks) :
    manifest.AdmitsAll chunks where
  length_le := hchunks.length_le
  admits := fun index hindex => (hchunks.holds index hindex).admitted

theorem Contents.beginsWith_pair {contents : Contents} {base : String} {manifest : Manifest}
    {first second : Bytes} (hcount : 2 ≤ manifest.chunks.toNat)
    (hfirst : contents.HoldsChunk base manifest 0 first)
    (hsecond : contents.HoldsChunk base manifest 1 second) :
    contents.BeginsWith base manifest [first, second] := by
  refine ⟨hcount, fun index hindex => ?_⟩
  match index, hindex with
  | 0, _ => exact hfirst
  | 1, _ => exact hsecond

namespace Manifest

variable {manifest : Manifest} {chunks : List Bytes} {chunk : Bytes} {index length : Nat}

theorem Admits.length_le (hadmits : manifest.Admits index length) :
    length ≤ manifest.chunkSize.toNat := by
  rw [Admits] at hadmits
  split at hadmits
  · exact hadmits
  · exact Nat.le_of_eq hadmits

theorem Admits.length_eq (hadmits : manifest.Admits index length)
    (hmore : index + 1 < manifest.chunks.toNat) : length = manifest.chunkSize.toNat := by
  rwa [Admits, if_neg (Nat.ne_of_lt hmore)] at hadmits

theorem admitsAll_nil : manifest.AdmitsAll [] where
  length_le := Nat.zero_le _
  admits := fun _ hindex => absurd hindex (Nat.not_lt_zero _)

/-- One more chunk is admitted exactly if its length is admitted behind the others. -/
theorem admitsAll_concat :
    manifest.AdmitsAll (chunks ++ [chunk]) ↔
      manifest.AdmitsAll chunks ∧ chunks.length < manifest.chunks.toNat ∧
        manifest.Admits chunks.length chunk.length := by
  have hlength : (chunks ++ [chunk]).length = chunks.length + 1 := by simp
  constructor
  · intro hall
    have hle := hall.length_le
    rw [hlength] at hle
    have hlast := hall.admits chunks.length (by omega)
    rw [List.getElem_concat_length rfl] at hlast
    refine ⟨⟨Nat.le_of_succ_le hle, fun index hindex => ?_⟩, hle, hlast⟩
    have hadmits := hall.admits index (by omega)
    rwa [List.getElem_append_left hindex] at hadmits
  · rintro ⟨hall, hmore, hlast⟩
    refine ⟨by omega, fun index hindex => ?_⟩
    by_cases hbefore : index < chunks.length
    · rw [List.getElem_append_left hbefore]
      exact hall.admits index hbefore
    · obtain rfl : index = chunks.length := by omega
      rw [List.getElem_concat_length rfl]
      exact hlast

namespace AdmitsAll

/-- Chunks that do not reach the last place are full. -/
theorem length_flatten (hall : manifest.AdmitsAll chunks)
    (hmore : chunks.length < manifest.chunks.toNat) :
    chunks.flatten.length = chunks.length * manifest.chunkSize.toNat := by
  induction chunks using List.reverseRecOn with
  | nil => simp
  | append_singleton chunks chunk ih =>
    obtain ⟨hbefore, hlt, hlast⟩ := admitsAll_concat.1 hall
    rw [List.length_append, List.length_singleton] at hmore ⊢
    rw [List.flatten_append, List.flatten_singleton, List.length_append, ih hbefore hlt,
      hlast.length_eq hmore, Nat.add_one_mul]

/-- All chunks but the last are full. -/
theorem length_flatten_bounds (hall : manifest.AdmitsAll chunks) :
    (chunks.length - 1) * manifest.chunkSize.toNat ≤ chunks.flatten.length ∧
      chunks.flatten.length ≤
        (chunks.length - 1) * manifest.chunkSize.toNat + manifest.chunkSize.toNat := by
  rcases List.eq_nil_or_concat chunks with rfl | ⟨before, last, hconcat⟩
  · simp
  · rw [List.concat_eq_append] at hconcat
    subst hconcat
    obtain ⟨hbefore, hlt, hlast⟩ := admitsAll_concat.1 hall
    have hle := hlast.length_le
    simp only [List.flatten_append, List.flatten_singleton, List.length_append,
      hbefore.length_flatten hlt, List.length_singleton, Nat.add_sub_cancel]
    omega

/-- Each of the chunks is the piece at its index of all of them together. -/
theorem piece_flatten (hall : manifest.AdmitsAll chunks) (hindex : index < chunks.length) :
    piece manifest.chunkSize.toNat chunks.flatten index = chunks[index] := by
  induction chunks using List.reverseRecOn with
  | nil => exact absurd hindex (Nat.not_lt_zero index)
  | append_singleton chunks chunk ih =>
    obtain ⟨hbefore, hlt, hlast⟩ := admitsAll_concat.1 hall
    have hfull := hbefore.length_flatten hlt
    rw [List.flatten_append, List.flatten_singleton]
    by_cases hearlier : index < chunks.length
    · rw [List.getElem_append_left hearlier, ← ih hbefore hearlier, piece_append]
      rw [hfull]
      exact Nat.mul_le_mul_right _ hearlier
    · rw [List.length_append, List.length_singleton] at hindex
      obtain rfl : index = chunks.length := by omega
      rw [List.getElem_concat_length rfl, piece, ← hfull, List.drop_left,
        List.take_of_length_le hlast.length_le]

/-- The word of the number of bytes tells the number, if the full chunks fit into the length that
the manifest records. -/
theorem length_eq_of_word_eq (hall : manifest.AdmitsAll chunks)
    (hlength : chunks.length = manifest.chunks.toNat)
    (hroom : (manifest.chunks.toNat - 1) * manifest.chunkSize.toNat ≤ manifest.length.toNat)
    (hword : UInt64.ofNat chunks.flatten.length = manifest.length) :
    chunks.flatten.length = manifest.length.toNat := by
  obtain ⟨-, hle⟩ := hall.length_flatten_bounds
  have hsize := manifest.chunkSize.toNat_lt
  have hmod := congrArg UInt64.toNat hword
  rw [UInt64.toNat_ofNat'] at hmod
  have hbound := manifest.length.toNat_lt
  rw [hlength] at hle
  have hdiv := Nat.div_add_mod chunks.flatten.length (2 ^ 64)
  rw [hmod] at hdiv
  have hzero : chunks.flatten.length / 2 ^ 64 = 0 := by
    omega
  omega

end AdmitsAll

/-- The full chunks of a value fit into its length. -/
theorem room_manifestOf (chunkSize : ChunkSize) {value : Bytes}
    (hfits : value.length < UInt64.size) :
    ((manifestOf chunkSize value).chunks.toNat - 1) * (manifestOf chunkSize value).chunkSize.toNat ≤
      (manifestOf chunkSize value).length.toNat := by
  have hlength : (manifestOf chunkSize value).length.toNat = value.length :=
    UInt64.toNat_ofNat_of_lt' hfits
  have hsize : (manifestOf chunkSize value).chunkSize.toNat = chunkSize.toNat := rfl
  rw [toNat_chunks_manifestOf chunkSize hfits, hlength, hsize]
  by_cases hmore : chunkCount chunkSize.toNat value.length ≤ 1
  · rw [Nat.sub_eq_zero_of_le hmore, Nat.zero_mul]
    exact Nat.zero_le _
  · obtain ⟨index, hindex⟩ : ∃ index, chunkCount chunkSize.toNat value.length = index + 2 :=
      ⟨_, (Nat.sub_add_cancel (by omega)).symm⟩
    rw [hindex]
    exact full_of_lt_chunkCount chunkSize.toNat_pos (by omega)

end Manifest

section Reading

open ChunkReader (past)

variable {sizes : Nat → Nat} {base : String} {manifest : Manifest} {chunks : List Bytes}
  {s : ChunkStore}

/-- The chunks under a base key go on until all are there or the next one is not admitted. -/
theorem exists_beginsWith (contents : Contents) (base : String) (manifest : Manifest) :
    ∃ chunks, contents.BeginsWith base manifest chunks ∧
      (chunks.length = manifest.chunks.toNat ∨ chunks.length < manifest.chunks.toNat ∧
        ∀ chunk, contents[chunkKey base (.ofNat chunks.length)]? = some chunk →
          ¬manifest.Admits chunks.length chunk.length) := by
  -- On the number of chunks that are still to come.
  suffices hfrom : ∀ left chunks, manifest.chunks.toNat - chunks.length = left →
      contents.BeginsWith base manifest chunks →
        ∃ chunks, contents.BeginsWith base manifest chunks ∧
          (chunks.length = manifest.chunks.toNat ∨ chunks.length < manifest.chunks.toNat ∧
            ∀ chunk, contents[chunkKey base (.ofNat chunks.length)]? = some chunk →
              ¬manifest.Admits chunks.length chunk.length) from
    hfrom _ [] rfl .nil
  intro left
  induction left with
  | zero =>
    intro chunks hleft hchunks
    have hle := hchunks.length_le
    exact ⟨chunks, hchunks, .inl (by omega)⟩
  | succ left ih =>
    intro chunks hleft hchunks
    by_cases hnext : ∃ chunk, contents[chunkKey base (.ofNat chunks.length)]? = some chunk ∧
        manifest.Admits chunks.length chunk.length
    · obtain ⟨chunk, hpresent, hadmits⟩ := hnext
      apply ih (chunks ++ [chunk])
      · rw [List.length_append, List.length_singleton]
        omega
      · exact Contents.beginsWith_concat.2 ⟨hchunks, by omega, hpresent, hadmits⟩
    · exact ⟨chunks, hchunks, .inr ⟨by omega, fun chunk hpresent hadmits =>
        hnext ⟨chunk, hpresent, hadmits⟩⟩⟩

/-- A reader does not get past a chunk that is missing or not admitted. -/
theorem readValue_of_stuck (hsizes : ∀ turn, 0 < sizes turn) (hloads : s.ServesLoads)
    (hrecords : s.contents.Records base manifest)
    (hchunks : s.contents.BeginsWith base manifest chunks)
    (hmore : chunks.length < manifest.chunks.toNat)
    (hstuck : ∀ chunk, s.contents[chunkKey base (.ofNat chunks.length)]? = some chunk →
      ¬manifest.Admits chunks.length chunk.length) :
    ∃ corruption, readValue sizes base s = .broken chunks.flatten
      (.carrying .other (.corruptChunkSequence base corruption)) := by
  obtain ⟨t, halike, hreading⟩ := readValue_of_beginsWith hsizes hloads hrecords hchunks
  obtain ⟨corruption, hnext⟩ : ∃ corruption, (past base manifest chunks).nextChunk t =
      (.error (.corruptChunkSequence base corruption),
        t.after (.load (chunkKey base (.ofNat chunks.length)))) := by
    have hnext := ChunkReader.nextChunk_past base halike.serves hmore
    rw [halike.contents] at hnext
    cases hfound : s.contents[chunkKey base (.ofNat chunks.length)]? with
    | none =>
      rw [hfound] at hnext
      exact ⟨_, hnext⟩
    | some chunk =>
      rw [hfound] at hnext
      simp only [if_neg (hstuck chunk hfound)] at hnext
      exact ⟨_, hnext⟩
  refine ⟨corruption, ?_⟩
  rw [hreading, ChunkReader.beyond_of_error hnext]
  simp [Reading.ofAhead, VaultError.toStream]

/-- Whatever the chunks under a manifest are, reading them fails with a corrupt sequence or
delivers as many bytes as the manifest records, and each chunk that lies under its index. -/
theorem readValue_of_records (hsizes : ∀ turn, 0 < sizes turn) (hloads : s.ServesLoads)
    (hrecords : s.contents.Records base manifest)
    (hroom : (manifest.chunks.toNat - 1) * manifest.chunkSize.toNat ≤ manifest.length.toNat) :
    (∃ bytes corruption, readValue sizes base s =
      .broken bytes (.carrying .other (.corruptChunkSequence base corruption))) ∨
    ∃ bytes, readValue sizes base s = .complete bytes ∧ bytes.length = manifest.length.toNat ∧
      ∀ i < manifest.chunks.toNat,
        s.contents[chunkKey base (.ofNat i)]? = some (piece manifest.chunkSize.toNat bytes i) := by
  obtain ⟨chunks, hchunks, hall | ⟨hmore, hstuck⟩⟩ := exists_beginsWith s.contents base manifest
  · rw [readValue_of_all hsizes hloads hrecords hchunks hall]
    split
    · rename_i hword
      refine .inr ⟨_, rfl, hchunks.admitsAll.length_eq_of_word_eq hall hroom hword, fun i hi => ?_⟩
      rw [← hall] at hi
      rw [hchunks.admitsAll.piece_flatten hi, (hchunks.holds i hi).present]
    · exact .inl ⟨_, _, rfl⟩
  · obtain ⟨corruption, hreading⟩ :=
      readValue_of_stuck hsizes hloads hrecords hchunks hmore hstuck
    exact .inl ⟨_, corruption, hreading⟩

end Reading

end ContentVault
