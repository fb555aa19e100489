import ContentVault.Proofs.ManifestCodec
import ContentVault.Proofs.StoreCalls

/-!
# Manifests in a store

A manifest that was stored under a key is found there, whatever its numbers are.  A manifest that
somebody else has left there in another form is found as well, and storing what was found brings
it into the one form in which manifests are written.
-/

namespace ContentVault

open Json

namespace ChunkStore

/-- Stores a manifest under a key and looks up what is there then. -/
def storeAndLoad (base : String) (manifest : Manifest) (s : ChunkStore) :
    Except StorageError (Option Manifest) × ChunkStore :=
  match s.storeManifest base manifest with
  | (.error error, s) => (.error error, s)
  | (.ok _, s) => s.loadManifest base

section Manifests

variable {s : ChunkStore} {base : String} {manifest : Manifest}

/-- What the two calls come to: the first refusal, or else the manifest. -/
theorem storeAndLoad_eq (s : ChunkStore) (base : String) (manifest : Manifest) :
    (s.storeAndLoad base manifest).1 =
      match (s.refusal? (.store base manifest.encode)).or
        ((s.after (.store base manifest.encode)).refusal? (.load base)) with
      | some error => .error error
      | none => .ok (some manifest) := by
  rw [storeAndLoad, storeManifest, store_eq]
  cases hstore : s.refusal? (.store base manifest.encode) with
  | some error => rfl
  | none =>
    have hbytes : (s.after (.store base manifest.encode)).contents[base]? = some manifest.encode := by
      rw [contents_after_of_served _ s hstore, Call.apply]
      exact Std.ExtTreeMap.getElem?_insert_self
    rw [Option.none_or]
    dsimp only
    cases hload : (s.after (.store base manifest.encode)).refusal? (.load base) with
    | some error => simp only [loadManifest, load_eq, hload]
    | none => rw [loadManifest_of_decode hload hbytes manifest.decode_encode]

/-- Storing a manifest changes nothing but its key, which gets the written form. -/
theorem contents_storeAndLoad (hserved : s.refusal? (.store base manifest.encode) = none) :
    (s.storeAndLoad base manifest).2.contents = s.contents.insert base manifest.encode := by
  rw [storeAndLoad, storeManifest, store_eq, hserved]
  dsimp only
  rw [loadManifest_snd, contents_after_load, contents_after_of_served _ s hserved, Call.apply]

end Manifests

/-- A manifest is kept: storing and looking it up gives the same numbers unless a call is refused.
Any JSON record of the three numbers is a manifest under its key, and if what is found there is
stored again, the same is found, and stands there in the written form. -/
theorem keeps_manifests :
    (∀ (s : ChunkStore) (base : String) (manifest : Manifest),
      (s.storeAndLoad base manifest).1 =
        match (s.refusal? (.store base manifest.encode)).or
          ((s.after (.store base manifest.encode)).refusal? (.load base)) with
        | some error => .error error
        | none => .ok (some manifest)) ∧
    (∀ (s s' : ChunkStore) (base : String) (manifest : Manifest),
      s.loadManifest base = (.ok (some manifest), s') →
      s'.refusal? (.store base manifest.encode) = none →
      (s'.after (.store base manifest.encode)).refusal? (.load base) = none →
        (s'.storeAndLoad base manifest).1 = .ok (some manifest) ∧
        (s'.storeAndLoad base manifest).2.contents = s.contents.insert base manifest.encode) ∧
    (∀ (s : ChunkStore) (base : String) (manifest : Manifest) (value : Value) (depth : Nat)
        (bytes blanks : Bytes),
      manifest.Describes value → Begins (fun _ => True) depth (.value value) bytes blanks →
      (∀ byte ∈ blanks, isBlank byte = true) → s.contents[base]? = some bytes →
      s.refusal? (.load base) = none →
        s.loadManifest base = (.ok (some manifest), s.after (.load base))) := by
  refine ⟨storeAndLoad_eq, fun s s' base manifest hload hstore hagain => ⟨?_, ?_⟩,
    fun s base manifest value depth bytes blanks hdescribes hbegins hblanks hbytes hserved => ?_⟩
  · rw [storeAndLoad_eq, hstore, Option.none_or, hagain]
  · have hsame : s'.contents = s.contents := by
      rw [← contents_after_load base s, ← loadManifest_snd, hload]
    rw [contents_storeAndLoad hstore, hsame]
  · exact loadManifest_of_decode hserved hbytes
      (Manifest.decode_of_begins hdescribes hbegins hblanks)

/-- The members of a manifest in another order, and an empty object among them. -/
def foreignMembers : List WrittenMember :=
  [⟨"length", "7", .number (some 7)⟩, ⟨"note", writeObject [], .object []⟩,
    ⟨"chunk_size", "4", .number (some 4)⟩, ⟨"chunks", "2", .number (some 2)⟩]

/-- A store with these members under a key, and a line break behind them. -/
def foreignStore : ChunkStore where
  contents := (∅ : Contents).insert "k-data" (Bytes.ofText (writeObject foreignMembers) ++ [0x0a])

/-- A manifest is found in this store, and rewritten when it is stored. -/
theorem keeps_manifests_foreignStore :
    ∃ s', foreignStore.loadManifest "k-data" = (.ok (some ⟨2, 7, 4⟩), s') ∧
      (s'.storeAndLoad "k-data" ⟨2, 7, 4⟩).1 = .ok (some ⟨2, 7, 4⟩) ∧
      (s'.storeAndLoad "k-data" ⟨2, 7, 4⟩).2.contents =
        foreignStore.contents.insert "k-data" (Manifest.encode ⟨2, 7, 4⟩) := by
  have hnatural (n : UInt64) : Writes (fun _ => True) 1 (toString n.toNat) (.number (some n)) :=
    writes_natural fun _ _ => trivial
  have hnote : Writes (fun _ => True) 1 (writeObject []) (.object []) :=
    @writes_object _ 0 [] nofun
  have hwrites : ∀ m ∈ foreignMembers, Writes (fun _ => True) 1 m.text m.value := by
    simp only [foreignMembers, List.forall_mem_cons]
    exact ⟨hnatural 7, hnote, hnatural 4, hnatural 2, nofun⟩
  have hends : EndsNumber [0x0a] := by
    rintro _ ⟨⟩
    decide
  have hdescribes : (Manifest.mk 2 7 4).Describes
      (.object (foreignMembers.map WrittenMember.entry)) :=
    .object fun field => by
      cases field <;> simp [foreignMembers, WrittenMember.entry, Manifest.member,
        Manifest.Field.key, Manifest.get]
  obtain ⟨-, hagain, hforms⟩ := keeps_manifests
  have hload := hforms foreignStore "k-data" ⟨2, 7, 4⟩ _ 2 _ [0x0a] hdescribes
    (writes_object hwrites _ hends) (List.forall_mem_singleton.2 rfl)
    Std.ExtTreeMap.getElem?_insert_self rfl
  exact ⟨_, hload, hagain foreignStore _ "k-data" ⟨2, 7, 4⟩ hload rfl rfl⟩

end ChunkStore

end ContentVault
