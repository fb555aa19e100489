import ContentVault.Proofs.AdmittedChunks
import ContentVault.Proofs.RefusedLoads

/-!
# The loop of a read

A read loads chunks until there is a byte to hand out or the value ends.  Contents may be made to
mislead it, and they may change from read to read; still only the last chunk can be empty, so a
read asks for two chunks at most.  A reader never gets past the number of chunks that its manifest
records, nor past the end of a chunk, and has handed out just what it has loaded but for the rest
of the last chunk.
-/

namespace ContentVault

theorem ChunkReader.nextChunk_of_admitted {r : ChunkReader} {s : ChunkStore} {chunk : Bytes}
    (hmore : r.nextIndex ≠ r.manifest.chunks)
    (hserved : s.refusal? (.load (chunkKey r.base r.nextIndex)) = none)
    (hchunk : s.contents[chunkKey r.base r.nextIndex]? = some chunk)
    (hfault : r.lengthFault? chunk.length = none) :
    r.nextChunk s = (.ok (some chunk), s.after (.load (chunkKey r.base r.nextIndex))) := by
  rw [nextChunk_of_more hmore, hserved, hchunk]
  simp only [inspect, hfault]

/-- A reader with the chunks that it has loaded so far, and its position in the last of them. -/
structure Cursor where
  reader : ChunkReader
  loaded : List Bytes
  position : Nat

namespace Cursor

variable {c c' : Cursor} {s s' : ChunkStore} {chunk : Bytes} {size : Nat}

def start (r : ChunkReader) : Cursor := ⟨r, [], 0⟩

/-- The chunk that was loaded last; before the first one there are no bytes in its place. -/
def current (c : Cursor) : Bytes := c.loaded.getLastD []

def IsSpent (c : Cursor) : Prop := c.position = c.current.length

instance (c : Cursor) : Decidable c.IsSpent := inferInstanceAs (Decidable (_ = _))

/-- Another chunk takes the place of the current one. -/
def load (c : Cursor) (chunk : Bytes) : Cursor :=
  ⟨c.reader.take chunk, c.loaded ++ [chunk], 0⟩

/-- As many bytes were handed out as were asked for, or as are left of the current chunk. -/
def hand (c : Cursor) (size : Nat) : Cursor :=
  { c with
    reader := c.reader.hand size
    position := c.position + min size (c.current.length - c.position) }

@[simp]
theorem current_load (c : Cursor) (chunk : Bytes) : (c.load chunk).current = chunk :=
  List.getLastD_concat

/-- The loop that a read begins with: as long as the current chunk is spent the next one is asked
for.  Each time that happens the cursor is listed. -/
inductive Refills : Cursor → ChunkStore → List Cursor →
    Except VaultError Unit × Cursor × ChunkStore → Prop where
  | ready {c : Cursor} (s : ChunkStore) (hmore : ¬c.IsSpent) : Refills c s [] (.ok (), c, s)
  | ended {c : Cursor} {s s' : ChunkStore} (hspent : c.IsSpent)
      (hnext : c.reader.nextChunk s = (.ok none, s')) : Refills c s [c] (.ok (), c, s')
  | failed {c : Cursor} {s s' : ChunkStore} {error : VaultError} (hspent : c.IsSpent)
      (hnext : c.reader.nextChunk s = (.error error, s')) : Refills c s [c] (.error error, c, s')
  | next {c : Cursor} {s s' : ChunkStore} {chunk : Bytes} {asks : List Cursor}
      {result : Except VaultError Unit × Cursor × ChunkStore} (hspent : c.IsSpent)
      (hnext : c.reader.nextChunk s = (.ok (some chunk), s'))
      (hrest : Refills (c.load chunk) s' asks result) : Refills c s (c :: asks) result

/-- A read: what is handed out lies at the position in the current chunk. -/
inductive Reads (c : Cursor) (s : ChunkStore) : Nat → List Cursor →
    Except IoError Bytes × Cursor × ChunkStore → Prop where
  | nothing : Reads c s 0 [] (.ok [], c, s)
  | failed {size : Nat} {asks : List Cursor} {error : VaultError} {c' : Cursor} {s' : ChunkStore}
      (hsize : 0 < size) (hrefills : Refills c s asks (.error error, c', s')) :
      Reads c s size asks (.error error.toStream, c', s')
  | handed {size : Nat} {asks : List Cursor} {c' : Cursor} {s' : ChunkStore} (hsize : 0 < size)
      (hrefills : Refills c s asks (.ok (), c', s')) :
      Reads c s size asks (.ok ((c'.current.drop c'.position).take size), c'.hand size, s')

/-- Some reads lead from one cursor to another.  Each of them finds a store of its own, with any
contents and any plan of refusals. -/
def Reaches : Cursor → Cursor → Prop :=
  Relation.ReflTransGen fun c c' => ∃ s size asks outcome s', c.Reads s size asks (outcome, c', s')

/-! ### What every read keeps -/

/-- How a reader, the chunks that it has loaded and its position belong together. -/
structure Valid (manifest : Manifest) (c : Cursor) : Prop where
  manifest_eq : c.reader.manifest = manifest
  chunkSize_ne_zero : manifest.chunkSize ≠ 0
  nextIndex : c.reader.nextIndex.toNat = c.loaded.length
  admitsAll : manifest.AdmitsAll c.loaded
  position_le : c.position ≤ c.current.length
  pending : c.reader.pending = c.current.drop c.position
  delivered : c.reader.delivered =
    .ofNat (c.loaded.flatten.length - (c.current.length - c.position))

variable {manifest : Manifest}

theorem Valid.isSpent_iff (hc : c.Valid manifest) : c.IsSpent ↔ c.reader.pending = [] := by
  have hle := hc.position_le
  rw [hc.pending, List.drop_eq_nil_iff, IsSpent]
  omega

theorem length_current_le (c : Cursor) : c.current.length ≤ c.loaded.flatten.length := by
  rcases List.eq_nil_or_concat c.loaded with hnil | ⟨before, last, hconcat⟩
  · rw [current, hnil]
    exact Nat.zero_le _
  · rw [current, hconcat, List.concat_eq_append, List.getLastD_concat, List.flatten_append,
      List.flatten_singleton, List.length_append]
    exact Nat.le_add_left _ _

/-- As long as a chunk is to come, its index can be counted up. -/
theorem Valid.nextIndex_add_one (hc : c.Valid manifest)
    (hmore : c.reader.nextIndex ≠ manifest.chunks) :
    c.loaded.length < manifest.chunks.toNat ∧
      (c.reader.nextIndex + 1).toNat = c.reader.nextIndex.toNat + 1 := by
  have hle := hc.admitsAll.length_le
  have hne : c.reader.nextIndex.toNat ≠ manifest.chunks.toNat :=
    fun heq => hmore (UInt64.toNat_inj.1 heq)
  have hbound := manifest.chunks.toNat_lt
  rw [hc.nextIndex] at hne ⊢
  refine ⟨Nat.lt_of_le_of_ne hle hne, ?_⟩
  rw [UInt64.toNat_add, UInt64.toNat_one, hc.nextIndex]
  exact Nat.mod_eq_of_lt (by omega)

/-- What is loaded next has a length that the manifest admits in its place. -/
theorem Valid.admits_of_nextChunk (hc : c.Valid manifest)
    (hnext : c.reader.nextChunk s = (.ok (some chunk), s')) :
    manifest.Admits c.loaded.length chunk.length := by
  have hmore := ChunkReader.nextIndex_ne_of_nextChunk hnext
  have hfault := ChunkReader.lengthFault?_of_nextChunk hnext
  rw [hc.manifest_eq] at hmore
  obtain ⟨-, hsucc⟩ := hc.nextIndex_add_one hmore
  have hlast : c.reader.nextIndex + 1 = manifest.chunks ↔
      c.loaded.length + 1 = manifest.chunks.toNat := by
    rw [← UInt64.toNat_inj, hsucc, hc.nextIndex]
  rw [ChunkReader.lengthFault?, hc.manifest_eq] at hfault
  simp only [hlast] at hfault
  split at hfault
  · cases hfault
  · rename_i hadmitted
    rw [Manifest.Admits]
    split <;> omega

theorem Valid.load (hc : c.Valid manifest) (hspent : c.IsSpent)
    (hnext : c.reader.nextChunk s = (.ok (some chunk), s')) : (c.load chunk).Valid manifest := by
  have hmore := ChunkReader.nextIndex_ne_of_nextChunk hnext
  rw [hc.manifest_eq] at hmore
  obtain ⟨hlt, hsucc⟩ := hc.nextIndex_add_one hmore
  exact {
    manifest_eq := hc.manifest_eq
    chunkSize_ne_zero := hc.chunkSize_ne_zero
    nextIndex := by
      change (c.reader.nextIndex + 1).toNat = (c.loaded ++ [chunk]).length
      rw [hsucc, hc.nextIndex, List.length_append, List.length_singleton]
    admitsAll := Manifest.admitsAll_concat.2 ⟨hc.admitsAll, hlt, hc.admits_of_nextChunk hnext⟩
    position_le := Nat.zero_le _
    pending := by rw [current_load]; rfl
    delivered := by
      have hdelivered := hc.delivered
      rw [hspent, Nat.sub_self, Nat.sub_zero] at hdelivered
      change c.reader.delivered =
        .ofNat ((c.loaded ++ [chunk]).flatten.length - ((c.load chunk).current.length - 0))
      rw [hdelivered, current_load, List.flatten_append, List.flatten_singleton, List.length_append,
        Nat.sub_zero, Nat.add_sub_cancel] }

theorem Valid.hand (hc : c.Valid manifest) (size : Nat) : (c.hand size).Valid manifest := by
  have hle := hc.position_le
  have htotal := c.length_current_le
  exact {
    manifest_eq := hc.manifest_eq
    chunkSize_ne_zero := hc.chunkSize_ne_zero
    nextIndex := hc.nextIndex
    admitsAll := hc.admitsAll
    position_le := by
      change c.position + min size (c.current.length - c.position) ≤ c.current.length
      omega
    pending := by
      change c.reader.pending.drop size =
        c.current.drop (c.position + min size (c.current.length - c.position))
      rw [hc.pending, List.drop_drop]
      rcases Nat.le_total size (c.current.length - c.position) with hsize | hsize
      · rw [Nat.min_eq_left hsize]
      · rw [Nat.min_eq_right hsize, List.drop_of_length_le (by omega),
          List.drop_of_length_le (by omega)]
    delivered := by
      change c.reader.delivered + .ofNat (c.reader.pending.take size).length =
        .ofNat (c.loaded.flatten.length -
          (c.current.length - (c.position + min size (c.current.length - c.position))))
      rw [hc.delivered, ← UInt64.ofNat_add, hc.pending, List.length_take, List.length_drop]
      congr 1
      omega }

theorem Refills.valid {asks : List Cursor} {result : Except VaultError Unit × Cursor × ChunkStore}
    (hrefills : Refills c s asks result) (hc : c.Valid manifest) :
    result.2.1.Valid manifest ∧ ∀ a ∈ asks, a.Valid manifest := by
  induction hrefills with
  | ready => exact ⟨hc, fun _ hmem => absurd hmem List.not_mem_nil⟩
  | ended => exact ⟨hc, List.forall_mem_singleton.2 hc⟩
  | failed => exact ⟨hc, List.forall_mem_singleton.2 hc⟩
  | next hspent hnext hrest ih =>
    obtain ⟨hresult, hasks⟩ := ih (hc.load hspent hnext)
    exact ⟨hresult, List.forall_mem_cons.2 ⟨hc, hasks⟩⟩

/-- Only the last chunk can be empty, and behind it there is none to be loaded. -/
theorem Refills.length_asks_le {asks : List Cursor}
    {result : Except VaultError Unit × Cursor × ChunkStore} (hrefills : Refills c s asks result)
    (hc : c.Valid manifest) : asks.length ≤ 2 := by
  cases hrefills with
  | ready => exact Nat.zero_le 2
  | ended => exact Nat.le_succ 1
  | failed => exact Nat.le_succ 1
  | @next _ _ s' chunk asks _ hspent hnext hrest =>
    cases hrest with
    | ready => exact Nat.le_succ 1
    | ended => exact Nat.le_refl 2
    | failed => exact Nat.le_refl 2
    | next hspent' hnext' =>
      -- A second chunk was found behind one that is spent at once, and so is empty.
      have hempty : chunk = [] := by
        rw [IsSpent, current_load] at hspent'
        exact List.length_eq_zero_iff.1 hspent'.symm
      subst hempty
      have hsize : c.reader.manifest.chunkSize ≠ 0 := by
        rw [hc.manifest_eq]
        exact hc.chunkSize_ne_zero
      exact absurd (ChunkReader.nextIndex_take_nil hsize hnext)
        (ChunkReader.nextIndex_ne_of_nextChunk hnext')

/-- The loop does what refilling the reader does. -/
theorem Refills.refill_eq {asks : List Cursor}
    {result : Except VaultError Unit × Cursor × ChunkStore} (hrefills : Refills c s asks result)
    (hc : c.Valid manifest) : c.reader.refill s = (result.1, result.2.1.reader, result.2.2) := by
  induction hrefills with
  | ready s hmore => exact ChunkReader.refill_of_pending (mt hc.isSpent_iff.2 hmore) s
  | ended hspent hnext =>
    rw [ChunkReader.refill_of_pending_nil (hc.isSpent_iff.1 hspent), hnext]
  | failed hspent hnext =>
    rw [ChunkReader.refill_of_pending_nil (hc.isSpent_iff.1 hspent), hnext]
  | next hspent hnext _ ih =>
    rw [ChunkReader.refill_of_pending_nil (hc.isSpent_iff.1 hspent), hnext]
    exact ih (hc.load hspent hnext)

theorem Valid.exists_refills (hc : c.Valid manifest) (s : ChunkStore) :
    ∃ asks result, Refills c s asks result := by
  -- The induction is on the chunks that are loaded, each of which leaves fewer to come.
  generalize hr : c.reader = r
  fun_induction ChunkReader.refill r s generalizing c with
  | case1 r s hpending =>
    subst hr
    exact ⟨[], _, .ready s (mt hc.isSpent_iff.1 hpending)⟩
  | case2 r s hpending s' error hnext =>
    subst hr
    exact ⟨[c], _, .failed (hc.isSpent_iff.2 (not_not.1 hpending)) hnext⟩
  | case3 r s hpending s' hnext =>
    subst hr
    exact ⟨[c], _, .ended (hc.isSpent_iff.2 (not_not.1 hpending)) hnext⟩
  | case4 r s hpending s' chunk hnext ih =>
    subst hr
    have hspent := hc.isSpent_iff.2 (not_not.1 hpending)
    obtain ⟨asks, result, hrest⟩ := ih (hc.load hspent hnext) rfl
    exact ⟨c :: asks, result, .next hspent hnext hrest⟩

/-! ### Reads -/

section Reads

variable {asks : List Cursor} {result : Except IoError Bytes × Cursor × ChunkStore}

theorem Reads.read_eq (hreads : c.Reads s size asks result) (hc : c.Valid manifest) :
    c.reader.read size s = (result.1, result.2.1.reader, result.2.2) := by
  cases hreads with
  | nothing => exact ChunkReader.read_zero c.reader s
  | failed hsize hrefills =>
    exact ChunkReader.read_of_refill_error hsize (hrefills.refill_eq hc)
  | handed hsize hrefills =>
    have hpending := (hrefills.valid hc).1.pending
    rw [ChunkReader.read_of_refill_ok hsize (hrefills.refill_eq hc), hpending]
    rfl

theorem Valid.exists_reads (hc : c.Valid manifest) (s : ChunkStore) (size : Nat) :
    ∃ asks result, c.Reads s size asks result := by
  rcases Nat.eq_zero_or_pos size with rfl | hsize
  · exact ⟨[], _, .nothing⟩
  · obtain ⟨asks, ⟨error | _, c', s'⟩, hrefills⟩ := hc.exists_refills s
    · exact ⟨asks, _, .failed hsize hrefills⟩
    · exact ⟨asks, _, .handed hsize hrefills⟩

theorem Reads.valid (hreads : c.Reads s size asks result) (hc : c.Valid manifest) :
    result.2.1.Valid manifest ∧ asks.length ≤ 2 ∧ ∀ a ∈ asks, a.Valid manifest := by
  cases hreads with
  | nothing => exact ⟨hc, Nat.zero_le 2, fun _ hmem => absurd hmem List.not_mem_nil⟩
  | failed _ hrefills =>
    obtain ⟨hresult, hasks⟩ := hrefills.valid hc
    exact ⟨hresult, hrefills.length_asks_le hc, hasks⟩
  | handed _ hrefills =>
    obtain ⟨hresult, hasks⟩ := hrefills.valid hc
    exact ⟨hresult.hand size, hrefills.length_asks_le hc, hasks⟩

end Reads

theorem Reaches.valid (hreaches : c.Reaches c') (hc : c.Valid manifest) : c'.Valid manifest := by
  induction hreaches with
  | refl => exact hc
  | tail _ hread ih =>
    obtain ⟨s, size, asks, outcome, s', hreads⟩ := hread
    exact (hreads.valid ih).1

/-- A reader that was just opened has loaded nothing. -/
theorem valid_start {base : String} {r : ChunkReader}
    (hopen : ChunkReader.create base s = (.ok r, s')) : (start r).Valid r.manifest := by
  obtain ⟨manifest, rfl, hsize⟩ := ChunkReader.eq_of_create_ok hopen
  exact {
    manifest_eq := rfl
    chunkSize_ne_zero := hsize
    nextIndex := rfl
    admitsAll := Manifest.admitsAll_nil
    position_le := Nat.zero_le _
    pending := rfl
    delivered := rfl }

/-- The bytes that were handed out, together with those that are left of the current chunk, are
all that was loaded. -/
theorem Valid.delivered_add (hc : c.Valid manifest)
    (hfits : c.loaded.flatten.length < UInt64.size) :
    c.reader.delivered.toNat + (c.current.length - c.position) = c.loaded.flatten.length := by
  have hle := c.length_current_le
  rw [hc.delivered, UInt64.toNat_ofNat_of_lt' (by omega)]
  omega

/-- The reader is not beyond the chunks that the manifest records, nor beyond the end of the
current chunk, and the index of the next chunk can be counted up. -/
structure InBounds (manifest : Manifest) (c : Cursor) : Prop where
  nextIndex_le : c.reader.nextIndex ≤ manifest.chunks
  position_le : c.position ≤ c.current.length
  nextIndex_add_one : c.reader.nextIndex ≠ manifest.chunks →
    (c.reader.nextIndex + 1).toNat = c.reader.nextIndex.toNat + 1

theorem Valid.inBounds (hc : c.Valid manifest) : c.InBounds manifest where
  nextIndex_le := by
    rw [UInt64.le_iff_toNat_le, hc.nextIndex]
    exact hc.admitsAll.length_le
  position_le := hc.position_le
  nextIndex_add_one := fun hmore => (hc.nextIndex_add_one hmore).2

/-- Whatever the contents are that a reader was opened for, and whatever each of its reads has
found since, it stays in bounds, keeps count of what it hands out, and each further read asks for
two chunks at most. -/
theorem inBounds_of_reaches {base : String} {r : ChunkReader}
    (hopen : ChunkReader.create base s = (.ok r, s')) (hreaches : (start r).Reaches c) :
    c.reader.manifest = r.manifest ∧
    c.InBounds r.manifest ∧
    c.reader.nextIndex.toNat = c.loaded.length ∧
    r.manifest.AdmitsAll c.loaded ∧
    c.reader.pending = c.current.drop c.position ∧
    (c.loaded.flatten.length < UInt64.size →
      c.reader.delivered.toNat + (c.current.length - c.position) = c.loaded.flatten.length) ∧
    ∀ t size, (∃ asks result, c.Reads t size asks result) ∧
      ∀ asks result, c.Reads t size asks result →
        c.reader.read size t = (result.1, result.2.1.reader, result.2.2) ∧
        asks.length ≤ 2 ∧ ∀ a ∈ asks, a.InBounds r.manifest := by
  have hc := hreaches.valid (valid_start hopen)
  refine ⟨hc.manifest_eq, hc.inBounds, hc.nextIndex, hc.admitsAll, hc.pending, hc.delivered_add,
    fun t size => ⟨hc.exists_reads t size, fun asks result hreads => ?_⟩⟩
  obtain ⟨-, hasks, hbounds⟩ := hreads.valid hc
  exact ⟨hreads.read_eq hc, hasks, fun a hmem => (hbounds a hmem).inBounds⟩

/-- A store that has lost its manifest and whose second chunk is empty. -/
def hollowStore : ChunkStore where
  contents := ((∅ : Contents).insert "b/0" [1, 2]).insert "b/1" []

/-- The second chunk is replaced by an empty one before it is loaded.  The read that loads it asks
once more, and finds that there are too few bytes. -/
theorem inBounds_of_reaches_hollowStore :
    ∃ s', ChunkReader.create "b" twoChunkStore = (.ok ⟨"b", ⟨2, 3, 2⟩, 0, [], 0⟩, s') ∧
    ∃ c, (start ⟨"b", ⟨2, 3, 2⟩, 0, [], 0⟩).Reaches c ∧ c.loaded = [[1, 2], []] ∧
      c.InBounds ⟨2, 3, 2⟩ ∧ c.reader.delivered.toNat = 2 := by
  have hopen : ChunkReader.create "b" twoChunkStore =
      (.ok ⟨"b", ⟨2, 3, 2⟩, 0, [], 0⟩, twoChunkStore.after (.load "b")) :=
    ChunkReader.create_of_served rfl
      ⟨⟨_, Std.ExtTreeMap.getElem?_insert_self, Manifest.decode_encode _⟩, by decide⟩
  let opened : Cursor := start ⟨"b", ⟨2, 3, 2⟩, 0, [], 0⟩
  let halfway : Cursor := (opened.load [1, 2]).hand 5
  have hfirst : twoChunkStore.contents[chunkKey "b" 0]? = some [1, 2] := by decide +kernel
  have hsecond : hollowStore.contents[chunkKey "b" 1]? = some [] := by decide +kernel
  have hfull : opened.Reaches halfway := .single ⟨_, 5, _, _, _, .handed (by decide) <|
    .next rfl (ChunkReader.nextChunk_of_admitted (by decide) rfl hfirst (by decide)) <|
      .ready _ (by decide)⟩
  have hreaches : opened.Reaches (halfway.load []) := hfull.tail ⟨_, 5, _, _, _,
    .failed (by decide) <|
      .next rfl (ChunkReader.nextChunk_of_admitted (by decide) rfl hsecond (by decide)) <|
        .failed rfl (ChunkReader.nextChunk_of_last rfl _)⟩
  obtain ⟨-, hbounds, -, -, -, hdelivered, -⟩ := inBounds_of_reaches hopen hreaches
  exact ⟨_, hopen, _, hreaches, rfl, hbounds, hdelivered (by decide)⟩

end Cursor

end ContentVault
