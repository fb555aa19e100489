import ContentVault.Proofs.ManifestCodec
import ContentVault.Proofs.ReadAhead
import ContentVault.Proofs.ValueLayout
import Mathlib.Algebra.Order.BigOperators.Group.List
import Mathlib.Data.List.Induction
import Mathlib.Data.List.Nodup
import Mathlib.Data.List.Perm.Subperm

/-!
# What a reader accepts

Contents of a store may be anything at all.  What comes of reading the value under a
base key is told from the contents alone: a value is accepted exactly if the
manifest can be read, every chunk it records is there with a length it admits, and
the lengths add up to the length it records.
-/

namespace ContentVault

open ChunkStore (Calls)

inductive Reading where
  /-- The value could not be opened. -/
  | refused (error : VaultError)
  /-- All bytes were handed out. -/
  | complete (bytes : Bytes)
  /-- Some bytes were handed out before a read failed. -/
  | broken (bytes : Bytes) (failure : IoError)

/-- Opens the value under a base key and reads it to its end, or until a read fails;
`sizes` tells how many bytes each read asks for. -/
def readValue (sizes : Nat → Nat) (base : String) (s : ChunkStore) : Reading :=
  match ChunkReader.create base s with
  | (.error error, _) => .refused error
  | (.ok r, s) =>
    match r.drain sizes s with
    | (bytes, none) => .complete bytes
    | (bytes, some failure) => .broken bytes failure

/-- How many bytes all values have together. -/
def Contents.byteCount (contents : Contents) : Nat :=
  (contents.toList.map fun entry => entry.2.length).sum

/-- The length that a manifest lets the chunk at an index have: the last chunk may be
shorter than the others. -/
def Manifest.Admits (manifest : Manifest) (index length : Nat) : Prop :=
  if index + 1 = manifest.chunks.toNat then length ≤ manifest.chunkSize.toNat
  else length = manifest.chunkSize.toNat

instance (manifest : Manifest) (index length : Nat) : Decidable (manifest.Admits index length) := by
  unfold Manifest.Admits
  infer_instance

namespace Contents

variable {contents : Contents} {base : String} {manifest : Manifest} {chunks : List Bytes}

/-- The base key holds a manifest, and its chunk size can be worked with. -/
structure Records (contents : Contents) (base : String) (manifest : Manifest) : Prop where
  decodes : ∃ text, contents[base]? = some text ∧ Manifest.decode text = .ok manifest
  chunkSize_ne_zero : manifest.chunkSize ≠ 0

/-- The chunk lies at its index, and the manifest admits its length there. -/
structure HoldsChunk (contents : Contents) (base : String) (manifest : Manifest) (index : Nat)
    (chunk : Bytes) : Prop where
  present : contents[chunkKey base (UInt64.ofNat index)]? = some chunk
  admitted : manifest.Admits index chunk.length

/-- These are, in order, the first chunks under a base key, all of lengths that the
manifest admits. -/
structure BeginsWith (contents : Contents) (base : String) (manifest : Manifest)
    (chunks : List Bytes) : Prop where
  length_le : chunks.length ≤ manifest.chunks.toNat
  holds : ∀ index (hindex : index < chunks.length),
    contents.HoldsChunk base manifest index chunks[index]

/-- What reading the value under a base key comes to. -/
inductive ReadsAs (contents : Contents) (base : String) : Reading → Prop where
  | notFound (hbase : contents[base]? = none) (hfirst : contents[chunkKey base 0]? = none) :
      ReadsAs contents base (.refused (.backendUnavailable (.notFound base)))
  | unterminated {chunk : Bytes} (hbase : contents[base]? = none)
      (hfirst : contents[chunkKey base 0]? = some chunk) :
      ReadsAs contents base (.refused (.corruptChunkSequence base .unterminated))
  | unreadable {text : Bytes} {fault : JsonFault} (hbase : contents[base]? = some text)
      (hdecode : Manifest.decode text = .error fault) :
      ReadsAs contents base (.refused (.backendUnavailable (.manifest fault)))
  | zeroChunkSize {text : Bytes} {manifest : Manifest} (hbase : contents[base]? = some text)
      (hdecode : Manifest.decode text = .ok manifest) (hzero : manifest.chunkSize = 0) :
      ReadsAs contents base (.refused (.corruptChunkSequence base .zeroChunkSize))
  | missingChunk {manifest : Manifest} {chunks : List Bytes}
      (hrecords : contents.Records base manifest)
      (hchunks : contents.BeginsWith base manifest chunks)
      (hmore : chunks.length < manifest.chunks.toNat)
      (hmissing : contents[chunkKey base (UInt64.ofNat chunks.length)]? = none) :
      ReadsAs contents base (.broken chunks.flatten (.carrying .other
        (.corruptChunkSequence base
          (.missingChunk (UInt64.ofNat chunks.length) manifest.chunks))))
  | wrongLength {manifest : Manifest} {chunks : List Bytes} {chunk : Bytes}
      (hrecords : contents.Records base manifest)
      (hchunks : contents.BeginsWith base manifest chunks)
      (hmore : chunks.length < manifest.chunks.toNat)
      (hchunk : contents[chunkKey base (UInt64.ofNat chunks.length)]? = some chunk)
      (hlength : ¬manifest.Admits chunks.length chunk.length) :
      ReadsAs contents base (.broken chunks.flatten (.carrying .other
        (.corruptChunkSequence base
          (.wrongChunkLength (UInt64.ofNat chunks.length) chunk.length manifest.chunkSize))))
  | wrongTotal {manifest : Manifest} {chunks : List Bytes}
      (hrecords : contents.Records base manifest)
      (hchunks : contents.BeginsWith base manifest chunks)
      (hall : chunks.length = manifest.chunks.toNat)
      (htotal : (chunks.map List.length).sum ≠ manifest.length.toNat) :
      ReadsAs contents base (.broken chunks.flatten (.carrying .other
        (.corruptChunkSequence base (.wrongTotal manifest.chunks
          (UInt64.ofNat chunks.flatten.length) manifest.length))))
  | complete {manifest : Manifest} {chunks : List Bytes} (hrecords : contents.Records base manifest)
      (hchunks : contents.BeginsWith base manifest chunks)
      (hall : chunks.length = manifest.chunks.toNat)
      (htotal : (chunks.map List.length).sum = manifest.length.toNat) :
      ReadsAs contents base (.complete chunks.flatten)

theorem BeginsWith.nil : contents.BeginsWith base manifest [] where
  length_le := Nat.zero_le _
  holds := fun _ hindex => absurd hindex (Nat.not_lt_zero _)

/-- One more chunk makes a longer beginning exactly if it is the next one. -/
theorem beginsWith_concat {chunk : Bytes} :
    contents.BeginsWith base manifest (chunks ++ [chunk]) ↔
      contents.BeginsWith base manifest chunks ∧ chunks.length < manifest.chunks.toNat ∧
        contents.HoldsChunk base manifest chunks.length chunk := by
  have hlength : (chunks ++ [chunk]).length = chunks.length + 1 := by simp
  constructor
  · intro hchunks
    have hlast := hchunks.holds chunks.length (by rw [hlength]; exact Nat.lt_succ_self _)
    rw [List.getElem_concat_length rfl] at hlast
    have hmore := hchunks.length_le
    rw [hlength] at hmore
    refine ⟨⟨Nat.le_of_succ_le hmore, fun index hindex => ?_⟩, hmore, hlast⟩
    have hholds := hchunks.holds index (by rw [hlength]; exact Nat.lt_succ_of_lt hindex)
    rwa [List.getElem_append_left hindex] at hholds
  · rintro ⟨hchunks, hmore, hlast⟩
    refine ⟨by rw [hlength]; exact hmore, fun index hindex => ?_⟩
    by_cases hbefore : index < chunks.length
    · rw [List.getElem_append_left hbefore]
      exact hchunks.holds index hbefore
    · rw [hlength] at hindex
      obtain rfl : index = chunks.length := by omega
      rw [List.getElem_concat_length rfl]
      exact hlast

/-- Different chunks lie under different keys, so they have no more bytes together than
all values have. -/
theorem BeginsWith.length_flatten_le (hchunks : contents.BeginsWith base manifest chunks) :
    chunks.flatten.length ≤ contents.byteCount := by
  let entries := chunks.zipIdx.map fun entry => (chunkKey base (UInt64.ofNat entry.2), entry.1)
  have hbound : manifest.chunks.toNat < UInt64.size := manifest.chunks.toNat_lt
  have hnodup : entries.Nodup := by
    apply List.Nodup.of_map Prod.fst
    have hkeys : entries.map Prod.fst =
        (List.range chunks.length).map fun index => chunkKey base (UInt64.ofNat index) := by
      rw [List.map_map, List.range_eq_range', ← List.zipIdx_map_snd 0 chunks, List.map_map]
      rfl
    rw [hkeys]
    refine List.Nodup.map_on ?_ List.nodup_range
    intro i hi j hj heq
    have hlength := hchunks.length_le
    have hindex := congrArg UInt64.toNat (chunkKey_injective heq).2
    rw [List.mem_range] at hi hj
    rw [UInt64.toNat_ofNat_of_lt' (by omega), UInt64.toNat_ofNat_of_lt' (by omega)] at hindex
    exact hindex
  have hsubset : entries ⊆ contents.toList := by
    intro entry hmem
    obtain ⟨⟨chunk, index⟩, hchunk, rfl⟩ := List.mem_map.1 hmem
    obtain ⟨hindex, hvalue⟩ :=
      List.getElem?_eq_some_iff.1 (List.mk_mem_zipIdx_iff_getElem?.1 hchunk)
    rw [Std.ExtTreeMap.mem_toList_iff_getElem?_eq_some, (hchunks.holds index hindex).present,
      hvalue]
  obtain ⟨part, hperm, hpart⟩ := List.subperm_of_subset hnodup hsubset
  have hlengths : entries.map (fun entry => entry.2.length) = chunks.map List.length := by
    rw [List.map_map]
    conv_rhs => rw [← List.zipIdx_map_fst 0 chunks, List.map_map]
    rfl
  calc chunks.flatten.length
      = (entries.map fun entry => entry.2.length).sum := by rw [List.length_flatten, hlengths]
    _ = (part.map fun entry => entry.2.length).sum := ((hperm.map _).sum_nat).symm
    _ ≤ contents.byteCount := (hpart.map _).sum_le_sum fun _ _ => Nat.zero_le _

end Contents

namespace ChunkStore

variable {s t : ChunkStore}

/-- The second store holds what the first one holds, and refuses no load. -/
structure LoadsAlike (s t : ChunkStore) : Prop where
  contents : t.contents = s.contents
  serves : t.ServesLoads

theorem LoadsAlike.load (halike : s.LoadsAlike t) (key : String) :
    s.LoadsAlike (t.after (.load key)) where
  contents := by rw [contents_after_load, halike.contents]
  serves := halike.serves.after (.load key)

end ChunkStore

namespace ChunkReader

variable {base : String} {manifest : Manifest} {chunks : List Bytes} {s : ChunkStore}

/-- The reader of a value once it has handed out its first chunks. -/
@[simps]
def past (base : String) (manifest : Manifest) (chunks : List Bytes) : ChunkReader where
  base := base
  manifest := manifest
  nextIndex := UInt64.ofNat chunks.length
  pending := []
  delivered := UInt64.ofNat chunks.flatten.length

theorem spend_take_past (chunk : Bytes) :
    ((past base manifest chunks).take chunk).spend = past base manifest (chunks ++ [chunk]) := by
  simp [past, take, spend, UInt64.ofNat_add]

theorem lengthFault?_past (hmore : chunks.length < manifest.chunks.toNat) (length : Nat) :
    (past base manifest chunks).lengthFault? length =
      if manifest.Admits chunks.length length then none
      else some (.wrongChunkLength (UInt64.ofNat chunks.length) length manifest.chunkSize) := by
  have hbound : manifest.chunks.toNat < UInt64.size := manifest.chunks.toNat_lt
  have hlast : UInt64.ofNat chunks.length + 1 = manifest.chunks ↔
      chunks.length + 1 = manifest.chunks.toNat := by
    have hnext : (UInt64.ofNat chunks.length + 1).toNat = chunks.length + 1 := by
      rw [← UInt64.ofNat_one, ← UInt64.ofNat_add]
      exact UInt64.toNat_ofNat_of_lt' (Nat.lt_of_le_of_lt hmore hbound)
    rw [← UInt64.toNat_inj, hnext]
  by_cases hend : chunks.length + 1 = manifest.chunks.toNat
  · by_cases hfits : length ≤ manifest.chunkSize.toNat
    · simp [lengthFault?, Manifest.Admits, hlast, hend, hfits, Nat.not_lt.2 hfits]
    · simp [lengthFault?, Manifest.Admits, hlast, hend, hfits, Nat.lt_of_not_le hfits]
  · by_cases hfull : length = manifest.chunkSize.toNat
    · simp [lengthFault?, Manifest.Admits, hlast, hend, hfull]
    · simp [lengthFault?, Manifest.Admits, hlast, hend, hfull]

/-- A reader that is not at the last chunk looks up the next one. -/
theorem nextChunk_past (base : String) (hloads : s.ServesLoads)
    (hmore : chunks.length < manifest.chunks.toNat) :
    (past base manifest chunks).nextChunk s =
      (match s.contents[chunkKey base (UInt64.ofNat chunks.length)]? with
        | none => .error (.corruptChunkSequence base
            (.missingChunk (UInt64.ofNat chunks.length) manifest.chunks))
        | some chunk =>
          if manifest.Admits chunks.length chunk.length then .ok (some chunk)
          else .error (.corruptChunkSequence base
            (.wrongChunkLength (UInt64.ofNat chunks.length) chunk.length manifest.chunkSize)),
        s.after (.load (chunkKey base (UInt64.ofNat chunks.length)))) := by
  have hbound : manifest.chunks.toNat < UInt64.size := manifest.chunks.toNat_lt
  have hindex : (past base manifest chunks).nextIndex ≠ manifest.chunks := by
    intro heq
    have hlength := congrArg UInt64.toNat heq
    rw [past_nextIndex, UInt64.toNat_ofNat_of_lt' (Nat.lt_trans hmore hbound)] at hlength
    omega
  have hload := hloads.load (chunkKey base (UInt64.ofNat chunks.length))
  rw [nextChunk]
  simp only [past_base, past_manifest, past_nextIndex] at hindex ⊢
  rw [if_neg hindex, hload]
  cases s.contents[chunkKey base (UInt64.ofNat chunks.length)]? with
  | none => rfl
  | some chunk =>
    simp only [lengthFault?_past hmore]
    by_cases hadmits : manifest.Admits chunks.length chunk.length
    · rw [if_pos hadmits, if_pos hadmits]
    · rw [if_neg hadmits, if_neg hadmits]

/-- The chunks that the contents begin with are handed out before anything else. -/
theorem beyond_of_beginsWith (hloads : s.ServesLoads)
    (hchunks : s.contents.BeginsWith base manifest chunks) :
    ∃ t, s.LoadsAlike t ∧ (past base manifest []).beyond s =
      (chunks.flatten ++ ((past base manifest chunks).beyond t).1,
        ((past base manifest chunks).beyond t).2) := by
  induction chunks using List.reverseRecOn with
  | nil => exact ⟨s, ⟨rfl, hloads⟩, rfl⟩
  | append_singleton chunks chunk ih =>
    obtain ⟨hbefore, hmore, hchunk⟩ := Contents.beginsWith_concat.1 hchunks
    obtain ⟨t, halike, hbeyond⟩ := ih hbefore
    have hnext := nextChunk_past base halike.serves hmore
    rw [halike.contents, hchunk.present] at hnext
    simp only [if_pos hchunk.admitted] at hnext
    refine ⟨_, halike.load (chunkKey base (UInt64.ofNat chunks.length)), ?_⟩
    rw [hbeyond, beyond_of_chunk hnext, ahead, spend_take_past]
    simp [take]

/-- Behind the last chunk only the number of bytes is left to be compared. -/
theorem nextChunk_past_all (base : String) (s : ChunkStore)
    (hall : chunks.length = manifest.chunks.toNat) :
    (past base manifest chunks).nextChunk s =
      (if UInt64.ofNat chunks.flatten.length = manifest.length then .ok none
      else .error (.corruptChunkSequence base (.wrongTotal manifest.chunks
        (UInt64.ofNat chunks.flatten.length) manifest.length)), s) := by
  have hindex : UInt64.ofNat chunks.length = manifest.chunks := by
    rw [hall, UInt64.ofNat_toNat]
  rw [nextChunk]
  simp only [past_base, past_manifest, past_nextIndex, past_delivered]
  rw [if_pos hindex]
  by_cases htotal : UInt64.ofNat chunks.flatten.length = manifest.length
  · rw [if_neg (not_not.2 htotal), if_pos htotal]
  · rw [if_pos htotal, if_neg htotal]

/-- A value is opened by the load of its manifest alone. -/
theorem create_of_served (hserved : s.refusal? (.load base) = none)
    (hrecords : s.contents.Records base manifest) :
    create base s = (.ok (past base manifest []), s.after (.load base)) := by
  obtain ⟨text, hbase, hdecode⟩ := hrecords.decodes
  rw [create, ChunkStore.loadManifest_of_decode hserved hbase hdecode]
  exact if_neg hrecords.chunkSize_ne_zero

theorem create_of_records (hloads : s.ServesLoads) (hrecords : s.contents.Records base manifest) :
    create base s = (.ok (past base manifest []), s.after (.load base)) :=
  create_of_served (hloads s.tally base) hrecords

end ChunkReader

def Reading.ofAhead : Bytes × Option VaultError → Reading
  | (bytes, none) => .complete bytes
  | (bytes, some error) => .broken bytes error.toStream

section Reading

open ChunkReader (past)

variable {sizes : Nat → Nat} {base : String} {manifest : Manifest} {chunks : List Bytes}
  {s : ChunkStore}

/-- A value that is opened is read as its first chunks and what lies beyond them. -/
theorem readValue_of_beginsWith (hsizes : ∀ turn, 0 < sizes turn) (hloads : s.ServesLoads)
    (hrecords : s.contents.Records base manifest)
    (hchunks : s.contents.BeginsWith base manifest chunks) :
    ∃ t, s.LoadsAlike t ∧ readValue sizes base s = .ofAhead
      (chunks.flatten ++ ((past base manifest chunks).beyond t).1,
        ((past base manifest chunks).beyond t).2) := by
  have hopened : s.LoadsAlike (s.after (.load base)) :=
    ChunkStore.LoadsAlike.load ⟨rfl, hloads⟩ base
  have hstill : (s.after (.load base)).contents.BeginsWith base manifest chunks := by
    rw [hopened.contents]
    exact hchunks
  obtain ⟨t, halike, hbeyond⟩ := ChunkReader.beyond_of_beginsWith hopened.serves hstill
  refine ⟨t, ⟨halike.contents.trans hopened.contents, halike.serves⟩, ?_⟩
  have hdrain := ChunkReader.drain_eq sizes hsizes (past base manifest []) (s.after (.load base))
  rw [ChunkReader.ahead_of_pending_nil rfl, hbeyond] at hdrain
  rw [readValue, ChunkReader.create_of_records hloads hrecords]
  simp only [hdrain, Reading.ofAhead]
  cases ((past base manifest chunks).beyond t).2 <;> rfl

/-- A value all of whose chunks are there is read as far as its chunks go. -/
theorem readValue_of_all (hsizes : ∀ turn, 0 < sizes turn) (hloads : s.ServesLoads)
    (hrecords : s.contents.Records base manifest)
    (hchunks : s.contents.BeginsWith base manifest chunks)
    (hall : chunks.length = manifest.chunks.toNat) :
    readValue sizes base s =
      if UInt64.ofNat chunks.flatten.length = manifest.length then .complete chunks.flatten
      else .broken chunks.flatten (.carrying .other (.corruptChunkSequence base
        (.wrongTotal manifest.chunks (UInt64.ofNat chunks.flatten.length) manifest.length))) := by
  obtain ⟨t, -, hreading⟩ := readValue_of_beginsWith hsizes hloads hrecords hchunks
  have hnext := ChunkReader.nextChunk_past_all base t hall
  rw [hreading]
  by_cases htotal : UInt64.ofNat chunks.flatten.length = manifest.length
  · rw [if_pos htotal] at hnext
    rw [ChunkReader.beyond_of_end hnext, if_pos htotal]
    simp [Reading.ofAhead]
  · rw [if_neg htotal] at hnext
    rw [ChunkReader.beyond_of_error hnext, if_neg htotal]
    simp [Reading.ofAhead, VaultError.toStream]

theorem readValue_of_complete (hsizes : ∀ turn, 0 < sizes turn) (hloads : s.ServesLoads)
    (hrecords : s.contents.Records base manifest)
    (hchunks : s.contents.BeginsWith base manifest chunks)
    (hall : chunks.length = manifest.chunks.toNat)
    (htotal : (chunks.map List.length).sum = manifest.length.toNat) :
    readValue sizes base s = .complete chunks.flatten := by
  rw [readValue_of_all hsizes hloads hrecords hchunks hall, List.length_flatten, htotal,
    UInt64.ofNat_toNat, if_pos rfl]

/-- Without a manifest, the first chunk decides whether there is a value. -/
theorem ChunkReader.create_of_absent (hloads : s.ServesLoads) (hbase : s.contents[base]? = none) :
    (ChunkReader.create base s).1 = .error (match s.contents[chunkKey base 0]? with
      | none => .backendUnavailable (.notFound base)
      | some _ => .corruptChunkSequence base .unterminated) := by
  have hmanifest : s.loadManifest base = (.ok none, s.after (.load base)) := by
    simp only [ChunkStore.loadManifest, hloads.load, hbase]
  have hfirst := (hloads.after (.load base)).load (chunkKey base 0)
  rw [ChunkStore.contents_after_load] at hfirst
  rw [create, hmanifest]
  simp only [hfirst]
  cases s.contents[chunkKey base 0]? <;> rfl

theorem readValue_of_absent (hloads : s.ServesLoads) (hbase : s.contents[base]? = none) :
    readValue sizes base s = .refused (match s.contents[chunkKey base 0]? with
      | none => .backendUnavailable (.notFound base)
      | some _ => .corruptChunkSequence base .unterminated) := by
  have hcreate := ChunkReader.create_of_absent hloads hbase
  rw [readValue]
  split
  · rename_i heq
    rw [heq] at hcreate
    rw [Except.error.inj hcreate]
  · rename_i heq
    rw [heq] at hcreate
    cases hcreate

/-- A beginning of the value is all of it, or the next chunk is not what it must be, or
the beginning can be made longer. -/
theorem exists_readsAs_of_beginsWith {contents : Contents}
    (hrecords : contents.Records base manifest)
    (hchunks : contents.BeginsWith base manifest chunks) :
    ∃ reading, contents.ReadsAs base reading := by
  induction hleft : manifest.chunks.toNat - chunks.length generalizing chunks with
  | zero =>
    have hall : chunks.length = manifest.chunks.toNat := by
      have hle := hchunks.length_le
      omega
    by_cases htotal : (chunks.map List.length).sum = manifest.length.toNat
    · exact ⟨_, .complete hrecords hchunks hall htotal⟩
    · exact ⟨_, .wrongTotal hrecords hchunks hall htotal⟩
  | succ left ih =>
    have hmore : chunks.length < manifest.chunks.toNat := by omega
    cases hnext : contents[chunkKey base (UInt64.ofNat chunks.length)]? with
    | none => exact ⟨_, .missingChunk hrecords hchunks hmore hnext⟩
    | some chunk =>
      by_cases hlength : manifest.Admits chunks.length chunk.length
      · apply ih (Contents.beginsWith_concat.2 ⟨hchunks, hmore, hnext, hlength⟩)
        rw [List.length_append, List.length_singleton]
        omega
      · exact ⟨_, .wrongLength hrecords hchunks hmore hnext hlength⟩

/-- Contents of every kind read as something. -/
theorem exists_readsAs (contents : Contents) (base : String) :
    ∃ reading, contents.ReadsAs base reading := by
  cases hbase : contents[base]? with
  | none =>
    cases hfirst : contents[chunkKey base 0]? with
    | none => exact ⟨_, .notFound hbase hfirst⟩
    | some chunk => exact ⟨_, .unterminated hbase hfirst⟩
  | some text =>
    cases hdecode : Manifest.decode text with
    | error fault => exact ⟨_, .unreadable hbase hdecode⟩
    | ok manifest =>
      by_cases hzero : manifest.chunkSize = 0
      · exact ⟨_, .zeroChunkSize hbase hdecode hzero⟩
      · exact exists_readsAs_of_beginsWith ⟨⟨text, hbase, hdecode⟩, hzero⟩ .nil

/-- Reading comes to what the contents read as. -/
theorem readValue_of_readsAs {reading : Reading} (hsizes : ∀ turn, 0 < sizes turn)
    (hloads : s.ServesLoads) (hfits : s.contents.byteCount < UInt64.size)
    (hreads : s.contents.ReadsAs base reading) : readValue sizes base s = reading := by
  cases hreads with
  | notFound hbase hfirst => rw [readValue_of_absent hloads hbase, hfirst]
  | unterminated hbase hfirst => rw [readValue_of_absent hloads hbase, hfirst]
  | unreadable hbase hdecode =>
    simp only [readValue, ChunkReader.create, ChunkStore.loadManifest, hloads.load, hbase, hdecode]
  | zeroChunkSize hbase hdecode hzero =>
    simp only [readValue, ChunkReader.create, ChunkStore.loadManifest, hloads.load, hbase, hdecode,
      if_pos hzero]
  | missingChunk hrecords hchunks hmore hmissing =>
    obtain ⟨t, halike, hreading⟩ := readValue_of_beginsWith hsizes hloads hrecords hchunks
    have hnext := ChunkReader.nextChunk_past base halike.serves hmore
    rw [halike.contents, hmissing] at hnext
    rw [hreading, ChunkReader.beyond_of_error hnext]
    simp [Reading.ofAhead, VaultError.toStream]
  | wrongLength hrecords hchunks hmore hchunk hlength =>
    obtain ⟨t, halike, hreading⟩ := readValue_of_beginsWith hsizes hloads hrecords hchunks
    have hnext := ChunkReader.nextChunk_past base halike.serves hmore
    rw [halike.contents, hchunk] at hnext
    simp only [if_neg hlength] at hnext
    rw [hreading, ChunkReader.beyond_of_error hnext]
    simp [Reading.ofAhead, VaultError.toStream]
  | wrongTotal hrecords hchunks hall htotal =>
    rw [readValue_of_all hsizes hloads hrecords hchunks hall, if_neg]
    intro heq
    have hlength := congrArg UInt64.toNat heq
    rw [UInt64.toNat_ofNat_of_lt' (Nat.lt_of_le_of_lt hchunks.length_flatten_le hfits),
      List.length_flatten] at hlength
    exact htotal hlength
  | complete hrecords hchunks hall htotal =>
    exact readValue_of_complete hsizes hloads hrecords hchunks hall htotal

/-- What reads of any sizes bring to light of any contents at all is told from the
contents alone. -/
theorem readValue_eq_iff (hsizes : ∀ turn, 0 < sizes turn) (hloads : s.ServesLoads)
    (hfits : s.contents.byteCount < UInt64.size) (base : String) (reading : Reading) :
    readValue sizes base s = reading ↔ s.contents.ReadsAs base reading := by
  constructor
  · intro hreading
    obtain ⟨told, htold⟩ := exists_readsAs s.contents base
    rw [← hreading, readValue_of_readsAs hsizes hloads hfits htold]
    exact htold
  · exact readValue_of_readsAs hsizes hloads hfits

def twoChunkStore : ChunkStore where
  contents := ((((∅ : Contents).insert "b/0" [1, 2]).insert "b/1" [3]).insert "b"
    (Manifest.encode ⟨2, 3, 2⟩))

theorem readValue_twoChunkStore :
    (∀ turn, 0 < (fun turn => turn + 1) turn) ∧ twoChunkStore.ServesLoads ∧
      Contents.byteCount twoChunkStore.contents < UInt64.size ∧
      readValue (fun turn => turn + 1) "b" twoChunkStore = .complete [1, 2, 3] := by
  have hsizes : ∀ turn, 0 < (fun turn => turn + 1) turn := Nat.succ_pos
  have hloads : twoChunkStore.ServesLoads := fun _ _ => rfl
  have hfits : Contents.byteCount twoChunkStore.contents < UInt64.size := by decide +kernel
  have hrecords : twoChunkStore.contents.Records "b" ⟨2, 3, 2⟩ :=
    ⟨⟨_, Std.ExtTreeMap.getElem?_insert_self, Manifest.decode_encode _⟩, by decide⟩
  have hchunks : twoChunkStore.contents.BeginsWith "b" ⟨2, 3, 2⟩ [[1, 2], [3]] := by
    have hfirst : twoChunkStore.contents.HoldsChunk "b" ⟨2, 3, 2⟩ 0 [1, 2] :=
      ⟨by decide +kernel, by decide⟩
    have hsecond : twoChunkStore.contents.HoldsChunk "b" ⟨2, 3, 2⟩ 1 [3] :=
      ⟨by decide +kernel, by decide⟩
    refine ⟨by decide, fun index hindex => ?_⟩
    match index, hindex with
    | 0, _ => exact hfirst
    | 1, _ => exact hsecond
  exact ⟨hsizes, hloads, hfits, (readValue_eq_iff hsizes hloads hfits "b" _).2
    (.complete hrecords hchunks rfl rfl)⟩

end Reading

end ContentVault
