import ContentVault.ChunkStore
import ContentVault.Proofs.KeySeparation
import Mathlib.Data.List.Basic

/-!
# How a value lies in a chunk store

A value is cut into pieces of one size, of which only the last may be shorter; an
empty value has one empty piece.  The pieces lie under the keys of chunks in order,
and the manifest under the base key tells their number, their size and the length of
the value.
-/

namespace ContentVault

def piece (size : Nat) (value : Bytes) (index : Nat) : Bytes :=
  (value.drop (index * size)).take size

def chunkCount (size length : Nat) : Nat :=
  max 1 ((length + size - 1) / size)

theorem length_piece (size : Nat) (value : Bytes) (index : Nat) :
    (piece size value index).length = min size (value.length - index * size) := by
  simp [piece]

/-- Bytes that are added behind a full piece do not change it. -/
theorem piece_append {size index : Nat} {value : Bytes} (more : Bytes)
    (hfull : (index + 1) * size ≤ value.length) :
    piece size (value ++ more) index = piece size value index := by
  have hlength : size ≤ (value.drop (index * size)).length := by
    rw [Nat.add_one_mul] at hfull
    rw [List.length_drop]
    omega
  rw [piece, piece, List.drop_append_of_le_length (by rw [Nat.add_one_mul] at hfull; omega),
    List.take_append_of_le_length hlength]

/-- The first pieces make up the beginning of the value. -/
theorem flatten_pieces (size : Nat) (value : Bytes) (count : Nat) :
    ((List.range count).map (piece size value)).flatten = value.take (count * size) := by
  induction count with
  | zero => simp
  | succ count ih =>
    rw [List.range_succ, List.map_append, List.flatten_append, ih, Nat.add_one_mul,
      List.take_add]
    simp [piece]

section Count

variable {size length index : Nat}

theorem length_le_chunkCount (hsize : 0 < size) : length ≤ chunkCount size length * size := by
  have hdiv := Nat.div_add_mod (length + size - 1) size
  have hmod := Nat.mod_lt (length + size - 1) hsize
  have hle : (length + size - 1) / size * size ≤ chunkCount size length * size :=
    Nat.mul_le_mul_right size (Nat.le_max_right _ _)
  rw [Nat.mul_comm] at hdiv
  omega

/-- Every piece but the last is full. -/
theorem full_of_lt_chunkCount (hsize : 0 < size) (hindex : index + 1 < chunkCount size length) :
    (index + 1) * size ≤ length := by
  have hdiv : index + 1 < (length + size - 1) / size := by
    rw [chunkCount] at hindex
    omega
  have hle := (Nat.le_div_iff_mul_le hsize).1 hdiv
  have hring : (index + 1).succ * size = (index + 1) * size + size := Nat.succ_mul _ _
  omega

theorem chunkCount_of_eq {full rest : Nat} (hsize : 0 < size) (hrest : rest ≤ size)
    (hlength : full * size + rest = length) (hpos : 0 < rest ∨ full = 0) :
    chunkCount size length = full + 1 := by
  have hsum : length + size - 1 = (rest + size - 1) + full * size := by omega
  have hdiv : (length + size - 1) / size = (rest + size - 1) / size + full := by
    rw [hsum, Nat.add_mul_div_right _ _ hsize]
  rw [chunkCount]
  rw [hdiv]
  rcases Nat.eq_zero_or_pos rest with hzero | hrest0
  · have hfull : full = 0 := hpos.resolve_left (by omega)
    subst hzero hfull
    have : (0 + size - 1) / size = 0 := Nat.div_eq_of_lt (by omega)
    omega
  · have : (rest + size - 1) / size = 1 := by
      rw [Nat.div_eq_iff hsize]
      omega
    omega

theorem chunkCount_of_full {full : Nat} (hsize : 0 < size) (hlength : full * size = length)
    (hpos : full ≠ 0) : chunkCount size length = full := by
  obtain ⟨before, rfl⟩ := Nat.exists_eq_succ_of_ne_zero hpos
  apply chunkCount_of_eq hsize (Nat.le_refl size)
  · rw [← hlength, Nat.succ_mul]
  · exact .inl hsize

theorem chunkCount_le (hsize : 0 < size) : chunkCount size length ≤ max 1 length := by
  have : (length + size - 1) / size ≤ length := by
    have hmul : length ≤ length * size := Nat.le_mul_of_pos_right length hsize
    apply Nat.le_of_lt_succ
    rw [Nat.div_lt_iff_lt_mul hsize, Nat.succ_mul]
    omega
  rw [chunkCount]
  omega

theorem chunkCount_lt (hsize : 0 < size) (hlength : length < UInt64.size) :
    chunkCount size length < UInt64.size := by
  have hle : chunkCount size length ≤ max 1 length := chunkCount_le hsize
  have : 1 < UInt64.size := by decide
  omega

end Count

theorem fits_of_append {value more : Bytes} (hfits : (value ++ more).length < UInt64.size) :
    value.length < UInt64.size := by
  rw [List.length_append] at hfits
  exact Nat.lt_of_le_of_lt (Nat.le_add_right _ _) hfits

/-- The manifest of a value that is cut into chunks of a size. -/
def manifestOf (chunkSize : ChunkSize) (value : Bytes) : Manifest where
  chunks := UInt64.ofNat (chunkCount chunkSize.toNat value.length)
  length := UInt64.ofNat value.length
  chunkSize := chunkSize.bytes

theorem toNat_chunks_manifestOf (chunkSize : ChunkSize) {value : Bytes}
    (hfits : value.length < UInt64.size) :
    (manifestOf chunkSize value).chunks.toNat = chunkCount chunkSize.toNat value.length :=
  UInt64.toNat_ofNat_of_lt' (chunkCount_lt chunkSize.toNat_pos hfits)

/-- The contents hold the first pieces of a value as chunks under a base key. -/
def Contents.HoldsPieces (contents : Contents) (base : String) (chunkSize : ChunkSize)
    (value : Bytes) (count : UInt64) : Prop :=
  ∀ i < count, contents[chunkKey base i]? = some (piece chunkSize.toNat value i.toNat)

namespace Contents.HoldsPieces

variable {contents contents' : Contents} {base : String} {chunkSize : ChunkSize} {value : Bytes}
  {count : UInt64}

theorem zero : contents.HoldsPieces base chunkSize value 0 :=
  fun _ hi => absurd hi UInt64.not_lt_zero

/-- The pieces stay as long as their keys keep their values. -/
theorem congr (hpieces : contents.HoldsPieces base chunkSize value count)
    (hkeeps : ∀ i < count, contents'[chunkKey base i]? = contents[chunkKey base i]?) :
    contents'.HoldsPieces base chunkSize value count :=
  fun i hi => (hkeeps i hi).trans (hpieces i hi)

/-- Full pieces are also pieces of a value that goes on. -/
theorem append (hpieces : contents.HoldsPieces base chunkSize value count) (more : Bytes)
    (hfull : count.toNat * chunkSize.toNat ≤ value.length) :
    contents.HoldsPieces base chunkSize (value ++ more) count := by
  intro i hi
  have hi' : (i.toNat + 1) * chunkSize.toNat ≤ value.length :=
    Nat.le_trans (Nat.mul_le_mul_right _ (UInt64.lt_iff_toNat_lt.1 hi)) hfull
  rw [piece_append more hi']
  exact hpieces i hi

/-- One more piece may be stored behind those that are there. -/
theorem insert (hpieces : contents.HoldsPieces base chunkSize value count) :
    Contents.HoldsPieces
      (contents.insert (chunkKey base count) (piece chunkSize.toNat value count.toNat))
      base chunkSize value (count + 1) := by
  intro i hi
  by_cases heq : i = count
  · rw [heq, Std.ExtTreeMap.getElem?_insert_self]
  · have hlt : i < count := by
      have hi := UInt64.lt_iff_toNat_lt.1 hi
      have hne : i.toNat ≠ count.toNat := fun h => heq (UInt64.toNat_inj.1 h)
      have hle := Nat.mod_le (count.toNat + 1) (2 ^ 64)
      rw [UInt64.toNat_add, UInt64.toNat_one] at hi
      rw [UInt64.lt_iff_toNat_lt]
      omega
    have hkey : chunkKey base count ≠ chunkKey base i := by
      rw [Ne, chunkKey_inj]
      exact fun h => heq h.2.symm
    simp only [Std.ExtTreeMap.getElem?_insert, Std.LawfulEqOrd.compare_eq_iff_eq, if_neg hkey]
    exact hpieces i hlt

end Contents.HoldsPieces

/-- The contents hold a value under a base key, with its manifest and all its chunks. -/
structure Contents.HoldsValue (contents : Contents) (base : String) (chunkSize : ChunkSize)
    (value : Bytes) : Prop where
  manifest : contents[base]? = some (manifestOf chunkSize value).encode
  chunks : contents.HoldsPieces base chunkSize value (manifestOf chunkSize value).chunks

/-- A value stays as long as every key that it occupies keeps its value. -/
theorem Contents.HoldsValue.congr {contents contents' : Contents} {base : String}
    {chunkSize : ChunkSize} {value : Bytes} (hvalue : contents.HoldsValue base chunkSize value)
    (hkeeps : ∀ key, Occupies base key → contents'[key]? = contents[key]?) :
    contents'.HoldsValue base chunkSize value where
  manifest := (hkeeps base (.base base)).trans hvalue.manifest
  chunks := hvalue.chunks.congr fun i _ => hkeeps (chunkKey base i) (.chunk base i)

end ContentVault
