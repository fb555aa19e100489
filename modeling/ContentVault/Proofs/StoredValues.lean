import ContentVault.Proofs.DirectRuns
import ContentVault.Proofs.FailingInput

/-!
# Values side by side

The values of a chunk store are kept under the keys of their digests.  As long as no two of
them collide, each is there whole, whatever was stored before or after it, and under any
other content key there is nothing.
-/

namespace ContentVault

open BlobStore (keyOf NoCollision)

/-- What a value does not occupy is not overwritten with it. -/
theorem Contents.getElem?_overwrite {base key : String} (chunkSize : ChunkSize) {value : Bytes}
    (contents : Contents) (hfits : value.length < UInt64.size) (hkey : ¬Occupies base key) :
    (contents.overwrite base chunkSize value)[key]? = contents[key]? := by
  obtain ⟨events, t, hover, heq⟩ := contents.exists_overwrites base chunkSize hfits
  rw [← heq]
  apply hover.others
  · exact fun hbase => hkey (.inl hbase)
  · exact fun i _ hchunk => hkey (.inr ⟨_, hchunk⟩)

/-- The contents hold each of the values under its key, and under other content keys neither
a manifest nor a first chunk. -/
structure Contents.HoldsAll (contents : Contents) (done : List Bytes) : Prop where
  values : ∀ value ∈ done, ∃ held, contents.HoldsValue (keyOf value).dataKey held value
  nothing : ∀ key : ContentKey, (∀ value ∈ done, keyOf value ≠ key) →
    contents[key.dataKey]? = none ∧ contents[chunkKey key.dataKey 0]? = none

namespace Contents.HoldsAll

variable {contents : Contents} {done : List Bytes} {value : Bytes}

theorem empty : HoldsAll ∅ [] where
  values := fun _ hvalue => absurd hvalue List.not_mem_nil
  nothing := fun _ _ => ⟨Std.ExtTreeMap.getElem?_empty, Std.ExtTreeMap.getElem?_empty⟩

/-- One more value joins those that are there, or is written over itself. -/
theorem overwrite (hall : contents.HoldsAll done) (chunkSize : ChunkSize)
    (hfits : value.length < UInt64.size) (hdistinct : NoCollision (done ++ [value])) :
    Contents.HoldsAll (contents.overwrite (keyOf value).dataKey chunkSize value)
      (done ++ [value]) where
  values := by
    intro other hother
    by_cases heq : keyOf other = keyOf value
    · have hsame : other = value := hdistinct other hother value
        (List.mem_append_right _ List.mem_cons_self) (BlobStore.hash_eq_of_keyOf_eq heq)
      rw [hsame]
      exact ⟨chunkSize, contents.holdsValue_overwrite _ chunkSize hfits⟩
    · have hdone : other ∈ done := by
        refine (List.mem_append.1 hother).resolve_right fun hmem => heq ?_
        rw [List.mem_singleton.1 hmem]
      obtain ⟨held, hvalue⟩ := hall.values other hdone
      refine ⟨held, hvalue.congr fun key hkey => ?_⟩
      exact contents.getElem?_overwrite chunkSize hfits fun hkey' => heq (hkey.unique hkey')
  nothing := by
    intro key hkey
    have hother : keyOf value ≠ key := hkey value (List.mem_append_right _ List.mem_cons_self)
    obtain ⟨hbase, hfirst⟩ := hall.nothing key fun value' hvalue' =>
      hkey value' (List.mem_append_left _ hvalue')
    have hkeeps {stored : String} (hstored : Occupies key.dataKey stored) :=
      contents.getElem?_overwrite chunkSize hfits
        fun hwritten : Occupies (keyOf value).dataKey stored => hother (hwritten.unique hstored)
    exact ⟨(hkeeps (.base _)).trans hbase, (hkeeps (.chunk _ _)).trans hfirst⟩

end Contents.HoldsAll

end ContentVault
