import ContentVault.Proofs.ReaderAcceptance

/-!
# Reading a value that is held

Contents that hold a value, with its manifest and all its pieces, are what a reader
accepts, and what it hands out is the value.
-/

namespace ContentVault

namespace Contents.HoldsValue

variable {contents : Contents} {base : String} {chunkSize : ChunkSize} {value : Bytes}

theorem records (hvalue : contents.HoldsValue base chunkSize value) :
    contents.Records base (manifestOf chunkSize value) where
  decodes := ⟨_, hvalue.manifest, Manifest.decode_encode _⟩
  chunkSize_ne_zero := chunkSize.bytes_ne_zero

/-- Only the last piece may be shorter than the others. -/
theorem admits_piece (hfits : value.length < UInt64.size) {index : Nat}
    (hindex : index < chunkCount chunkSize.toNat value.length) :
    (manifestOf chunkSize value).Admits index (piece chunkSize.toNat value index).length := by
  have hsize : (manifestOf chunkSize value).chunkSize.toNat = chunkSize.toNat := rfl
  rw [Manifest.Admits.eq_def, toNat_chunks_manifestOf chunkSize hfits, hsize, length_piece]
  split
  · exact Nat.min_le_left _ _
  · have hmore : index + 1 < chunkCount chunkSize.toNat value.length := by omega
    have hfull := full_of_lt_chunkCount chunkSize.toNat_pos hmore
    rw [Nat.add_one_mul] at hfull
    omega

/-- The pieces of the value are its chunks. -/
theorem beginsWith (hvalue : contents.HoldsValue base chunkSize value)
    (hfits : value.length < UInt64.size) :
    contents.BeginsWith base (manifestOf chunkSize value)
      ((List.range (chunkCount chunkSize.toNat value.length)).map
        (piece chunkSize.toNat value)) := by
  refine ⟨?_, fun index hindex => ?_⟩
  · rw [List.length_map, List.length_range, toNat_chunks_manifestOf chunkSize hfits]
  · rw [List.length_map, List.length_range] at hindex
    have hword : (UInt64.ofNat index).toNat = index :=
      UInt64.toNat_ofNat_of_lt' (Nat.lt_trans hindex (chunkCount_lt chunkSize.toNat_pos hfits))
    have hwithin : UInt64.ofNat index < (manifestOf chunkSize value).chunks := by
      rw [UInt64.lt_iff_toNat_lt, hword, toNat_chunks_manifestOf chunkSize hfits]
      exact hindex
    have hpresent := hvalue.chunks (UInt64.ofNat index) hwithin
    rw [hword] at hpresent
    rw [List.getElem_map, List.getElem_range]
    exact ⟨hpresent, admits_piece hfits hindex⟩

/-- The pieces make up the value. -/
theorem flatten_eq (chunkSize : ChunkSize) (value : Bytes) :
    ((List.range (chunkCount chunkSize.toNat value.length)).map
      (piece chunkSize.toNat value)).flatten = value := by
  rw [flatten_pieces, List.take_of_length_le (length_le_chunkCount chunkSize.toNat_pos)]

end Contents.HoldsValue

section Reading

open Contents.HoldsValue

variable {base : String} {chunkSize : ChunkSize} {value : Bytes} {s : ChunkStore}

/-- A value that is held can be opened, and lies ahead of its reader. -/
theorem exists_reader_of_holdsValue (hloads : s.ServesLoads)
    (hvalue : s.contents.HoldsValue base chunkSize value) (hfits : value.length < UInt64.size) :
    ∃ r, ChunkReader.create base s = (.ok r, s.after (.load base)) ∧
      r.ahead (s.after (.load base)) = (value, none) := by
  have hall : ((List.range (chunkCount chunkSize.toNat value.length)).map
      (piece chunkSize.toNat value)).length = (manifestOf chunkSize value).chunks.toNat := by
    rw [List.length_map, List.length_range, toNat_chunks_manifestOf chunkSize hfits]
  have hstill : (s.after (.load base)).contents.HoldsValue base chunkSize value := by
    rw [ChunkStore.contents_after_load]
    exact hvalue
  obtain ⟨t, -, hbeyond⟩ := ChunkReader.beyond_of_beginsWith (hloads.after (.load base))
    (hstill.beginsWith hfits)
  have hnext := ChunkReader.nextChunk_past_all base t hall
  have htotal : UInt64.ofNat value.length = (manifestOf chunkSize value).length := rfl
  rw [flatten_eq, if_pos htotal] at hnext
  refine ⟨_, ChunkReader.create_of_records hloads hvalue.records, ?_⟩
  rw [ChunkReader.ahead_of_pending_nil rfl, hbeyond, ChunkReader.beyond_of_end hnext, flatten_eq,
    List.append_nil]

theorem readValue_of_holdsValue {sizes : Nat → Nat} (hsizes : ∀ turn, 0 < sizes turn)
    (hloads : s.ServesLoads) (hvalue : s.contents.HoldsValue base chunkSize value)
    (hfits : value.length < UInt64.size) : readValue sizes base s = .complete value := by
  obtain ⟨r, hcreate, hahead⟩ := exists_reader_of_holdsValue hloads hvalue hfits
  have hdrain := ChunkReader.drain_eq sizes hsizes r (s.after (.load base))
  rw [hahead] at hdrain
  rw [readValue, hcreate]
  simp only [hdrain, Option.map_none]

end Reading

end ContentVault
