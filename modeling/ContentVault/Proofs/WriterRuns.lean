import ContentVault.Proofs.Copying
import ContentVault.Proofs.ValueReading
import ContentVault.Proofs.WriterRecords
import Mathlib.Logic.Function.Basic

/-!
# Runs of writers over one store

Any number of writers for any keys may take turns on one store, call by call refused or
served, and be finished, dropped or abandoned at any point.  As long as no key has
two writers at a time that can still accept bytes, reading a key gives all bytes of its
last writer if finishing that one has succeeded, and no bytes at all otherwise.  A writer for
which there is no buffer is not created, and the attempt takes the value of the last one.
-/

namespace ContentVault

open ChunkStore (Calls)

/-- A vault, and the records of all writers that were ever created in one of its stores,
for each key the last one first. -/
structure Session where
  vault : Vault
  writers : ContentKey → List WriterRecord

namespace Session

def start (v : Vault) : Session :=
  ⟨v, fun _ => []⟩

/-- One operation on the store of a session.  No writer is created for a key that has a
writer which can still accept bytes. -/
inductive Step (id : StoreId) : Session → Session → Prop where
  | turn {session : Session} {key : ContentKey} {records : List WriterRecord} {s : ChunkStore}
      (hturn : Turn key.dataKey (session.writers key, session.vault.stores.get id) (records, s)) :
      Step id session
        { vault := { session.vault with stores := session.vault.stores.insert id s }
          writers := Function.update session.writers key records }
  | store {session : Session} {key : ContentKey} {config : StoreConfig} {chunkSize : ChunkSize}
      {source : Source} {w : ChunkWriter} {s : ChunkStore} {bytes : Bytes} {copied : Entry.Copied}
      (hidle : ∀ record ∈ session.writers key, ¬record.Unfinished)
      (hcreate : ChunkWriter.create key.dataKey chunkSize (session.vault.stores.get id) =
        (.ok w, s))
      (hcopies : Entry.Copies id w source (session.vault.stores.insert id s) bytes copied) :
      Step id session
        { vault := ((Entry.mk (.chunked ⟨id, config⟩ chunkSize) key).store source
            session.vault).2.2
          writers := Function.update session.writers key
            (⟨bytes, (copied.writer.finish (copied.stores.get id)).1.isOk, none⟩ ::
              session.writers key) }
  | storeRefused {session : Session} {key : ContentKey} {config : StoreConfig}
      {chunkSize : ChunkSize} {source : Source} {error : VaultError} {s : ChunkStore}
      (hcreate : ChunkWriter.create key.dataKey chunkSize (session.vault.stores.get id) =
        (.error (.reported error), s)) :
      Step id session
        { session with
          vault := ((Entry.mk (.chunked ⟨id, config⟩ chunkSize) key).store source
            session.vault).2.2 }
  | storePanicked {session : Session} {key : ContentKey} {config : StoreConfig}
      {chunkSize : ChunkSize} {source : Source} {s : ChunkStore}
      (hcreate : ChunkWriter.create key.dataKey chunkSize (session.vault.stores.get id) =
        (.error .panicked, s)) :
      Step id session
        { vault := ((Entry.mk (.chunked ⟨id, config⟩ chunkSize) key).store source
            session.vault).2.2
          writers := Function.update session.writers key (revoked (session.writers key)) }

abbrev Runs (id : StoreId) : Session → Session → Prop :=
  Relation.ReflTransGen (Step id)

end Session

/-- Copying a source to a writer is a number of operations on the writer. -/
theorem Entry.Copies.turns {id : StoreId} {base : String} {w : ChunkWriter} {source : Source}
    {stores : Stores} {bytes : Bytes} {copied : Copied}
    (hcopies : Copies id w source stores bytes copied) (accepted : Bytes)
    (earlier : List WriterRecord) :
    Turns base (⟨accepted, false, some w⟩ :: earlier, stores.get id)
      (⟨accepted ++ bytes, false, some copied.writer⟩ :: earlier, copied.stores.get id) := by
  have hlook {source after : Source} {stores stores' : Stores} {result : Except IoError Bytes}
      (hread : source.read copySize stores = (result, after, stores'))
      (records : List WriterRecord) :
      Turn base (records, stores.get id) (records, stores'.get id) :=
    .look (Source.calls_of_read hread id)
  induction hcopies generalizing accepted with
  | ended hread =>
    rw [List.append_nil]
    exact .single (hlook hread _)
  | @accepted w w' source after stores stores' s piece bytes copied hread hpiece hwrite hrest ih =>
    have hturn : Turn base (⟨accepted, false, some w⟩ :: earlier, stores'.get id)
        (⟨accepted ++ piece, false, some w'⟩ :: earlier, s) :=
      @Turn.write base [] earlier accepted piece false w w' _ s (.ok ()) hwrite
    have hrest := ih (accepted ++ piece)
    rw [Stores.get_insert_self, List.append_assoc] at hrest
    exact .head (hlook hread _) (.head hturn hrest)
  | @rejected w w' source after stores stores' s piece error hread hpiece hwrite =>
    have hturn : Turn base (⟨accepted, false, some w⟩ :: earlier, stores'.get id)
        (⟨accepted ++ [], false, some w'⟩ :: earlier, s) :=
      @Turn.write base [] earlier accepted piece false w w' _ s (.error error) hwrite
    refine .head (hlook hread _) (.single ?_)
    rw [Stores.get_insert_self]
    exact hturn
  | again hread hinterrupted hrest ih => exact .head (hlook hread _) (ih accepted)
  | failed hread hinterrupted =>
    rw [List.append_nil]
    exact .single (hlook hread _)

namespace Session

variable {id : StoreId} {session session' : Session} {key : ContentKey}

/-- Storing a source is a number of operations on one writer. -/
theorem turns_of_store {config : StoreConfig} {chunkSize : ChunkSize} {source : Source}
    {v : Vault} {w : ChunkWriter} {s : ChunkStore} {bytes : Bytes} {copied : Entry.Copied}
    {records : List WriterRecord} (hidle : ∀ record ∈ records, ¬record.Unfinished)
    (hcreate : ChunkWriter.create key.dataKey chunkSize (v.stores.get id) = (.ok w, s))
    (hcopies : Entry.Copies id w source (v.stores.insert id s) bytes copied) :
    Turns key.dataKey (records, v.stores.get id)
      (⟨bytes, (copied.writer.finish (copied.stores.get id)).1.isOk, none⟩ :: records,
        ((Entry.mk (.chunked ⟨id, config⟩ chunkSize) key).store source v).2.2.stores.get id) := by
  have hstored : ((Entry.mk (.chunked ⟨id, config⟩ chunkSize) key).store source
      v).2.2.stores.get id = (copied.writer.finish (copied.stores.get id)).2.2 := by
    have hchunks := @Entry.storeChunks_of_copies key ⟨id, config⟩ chunkSize source v.stores w s
      bytes copied hcreate hcopies
    simp only [Entry.store, hchunks, Stores.get_insert_self]
  have hcopied := @Entry.Copies.turns id key.dataKey w source _ bytes copied hcopies [] records
  have hdrop := @Turn.drop key.dataKey [] records bytes false copied.writer (copied.stores.get id)
  rw [Stores.get_insert_self] at hcopied
  rw [ChunkWriter.drop_eq] at hdrop
  rw [hstored]
  exact .head (.create hidle hcreate) (hcopied.trans (.single hdrop))

/-- Without a writer, storing a source does no more than failing to create one. -/
theorem get_store_of_create_error {config : StoreConfig} {chunkSize : ChunkSize} {source : Source}
    {v : Vault} {failure : Failure VaultError} {s : ChunkStore}
    (hcreate : ChunkWriter.create key.dataKey chunkSize (v.stores.get id) = (.error failure, s)) :
    ((Entry.mk (.chunked ⟨id, config⟩ chunkSize) key).store source v).2.2.stores.get id = s := by
  have hchunks := @Entry.storeChunks_of_create_error key ⟨id, config⟩ chunkSize source v.stores s
    failure hcreate
  simp only [Entry.store, hchunks, Stores.get_insert_self]

/-- A step works on the value of one key. -/
theorem Step.turns (hstep : Step id session session') :
    ∃ key records, session'.writers = Function.update session.writers key records ∧
      Turns key.dataKey (session.writers key, session.vault.stores.get id)
        (records, session'.vault.stores.get id) := by
  cases hstep with
  | @turn key records s hturn =>
    refine ⟨key, records, rfl, ?_⟩
    rw [Stores.get_insert_self]
    exact .single hturn
  | store hidle hcreate hcopies => exact ⟨_, _, rfl, turns_of_store hidle hcreate hcopies⟩
  | @storeRefused key _ _ _ _ _ hcreate =>
    refine ⟨key, _, (Function.update_eq_self key _).symm, ?_⟩
    rw [get_store_of_create_error hcreate]
    exact .single (.createRefused hcreate)
  | @storePanicked key _ _ _ _ hcreate =>
    refine ⟨key, _, rfl, ?_⟩
    rw [get_store_of_create_error hcreate]
    exact .single (.createPanicked hcreate)

theorem Step.based (hstep : Step id session session')
    (hbased : ∀ key, Based key.dataKey (session.writers key)) (key : ContentKey) :
    Based key.dataKey (session'.writers key) := by
  obtain ⟨key', records, hwriters, hturns⟩ := hstep.turns
  rw [hwriters]
  by_cases heq : key = key'
  · subst heq
    rw [Function.update_self]
    exact hturns.based (hbased key)
  · rw [Function.update_of_ne heq]
    exact hbased key

theorem Step.countable (hstep : Step id session session')
    (hcountable : Countable (session'.writers key)) : Countable (session.writers key) := by
  obtain ⟨key', records, hwriters, hturns⟩ := hstep.turns
  rw [hwriters] at hcountable
  by_cases heq : key = key'
  · subst heq
    rw [Function.update_self] at hcountable
    exact hturns.countable hcountable
  · rw [Function.update_of_ne heq] at hcountable
    exact hcountable

/-- A step keeps the account of every key: of the key that it works on by what each
operation does, of the others because it changes none of their keys. -/
theorem Step.accounts (hstep : Step id session session')
    (hbased : ∀ key, Based key.dataKey (session.writers key))
    (hcountable : Countable (session'.writers key))
    (haccounts : Accounts key.dataKey (session.writers key) (session.vault.stores.get id)) :
    Accounts key.dataKey (session'.writers key) (session'.vault.stores.get id) := by
  obtain ⟨key', records, hwriters, hturns⟩ := hstep.turns
  rw [hwriters] at hcountable ⊢
  by_cases heq : key = key'
  · subst heq
    rw [Function.update_self] at hcountable ⊢
    exact hturns.accounts (hbased key) hcountable haccounts
  · rw [Function.update_of_ne heq]
    apply haccounts.of_calls (hbased key) (hturns.calls (hbased key'))
    rintro call (hload | hwithin) name hname halters
    · exact hload.not_alters name halters
    · rw [Call.Within, Call.key_eq_of_alters halters] at hwithin
      exact heq (hname.unique hwithin)

namespace Runs

theorem based {v : Vault} (hruns : Runs id (start v) session) (key : ContentKey) :
    Based key.dataKey (session.writers key) := by
  induction hruns generalizing key with
  | refl => exact fun _ hmem => absurd hmem List.not_mem_nil
  | tail _ hstep ih => exact hstep.based ih key

/-- All along a run that begins with an empty store, the store is as the records tell. -/
theorem accounts {v : Vault} {plan : FaultPlan} (hruns : Runs id (start v) session)
    (hempty : v.stores.get id = { plan := plan }) (hcountable : Countable (session.writers key)) :
    Accounts key.dataKey (session.writers key) (session.vault.stores.get id) := by
  induction hruns with
  | refl =>
    change Accounts key.dataKey [] (v.stores.get id)
    rw [hempty]
    exact Accounts.empty key.dataKey plan
  | tail hruns hstep ih =>
    exact hstep.accounts (based hruns) hcountable (ih (hstep.countable hcountable))

end Runs

/-- Storing any source is a step, unless the key has a writer that can still accept
bytes. -/
theorem exists_step_of_store (hidle : ∀ record ∈ session.writers key, ¬record.Unfinished)
    (config : StoreConfig) (chunkSize : ChunkSize) (source : Source) :
    ∃ session', Step id session session' ∧ session'.vault =
      ((Entry.mk (.chunked ⟨id, config⟩ chunkSize) key).store source session.vault).2.2 := by
  rcases hcreate : ChunkWriter.create key.dataKey chunkSize (session.vault.stores.get id) with
    ⟨(error | _) | w, s⟩
  · exact ⟨_, .storeRefused hcreate, rfl⟩
  · exact ⟨_, .storePanicked hcreate, rfl⟩
  · obtain ⟨bytes, hcopies⟩ :=
      Entry.exists_copies id w source (session.vault.stores.insert id s)
    exact ⟨_, .store hidle hcreate hcopies, rfl⟩

end Session

section Reading

variable {base : String} {records : List WriterRecord} {s t : ChunkStore} {sizes : Nat → Nat}

/-- Without a manifest, reading tells whether a first chunk was ever stored. -/
theorem ChunkStore.Tells.readValue (sizes : Nat → Nat) (htells : s.Tells (chunkKey base 0))
    (habsent : s.contents[base]? = none) (hcontents : t.contents = s.contents)
    (hloads : t.ServesLoads) :
    (¬s.HasStored (chunkKey base 0) →
      readValue sizes base t = .refused (.backendUnavailable (.notFound base))) ∧
    (s.HasStored (chunkKey base 0) →
      readValue sizes base t = .refused (.corruptChunkSequence base .unterminated)) := by
  rw [← hcontents] at habsent
  rw [Tells, ← hcontents] at htells
  rw [readValue_of_absent hloads habsent, ← htells]
  cases t.contents[chunkKey base 0]? <;> simp

/-- What reading a value must come to, given the records of its writers: all bytes of the
last one if finishing it has succeeded and no panic has taken them since, and else a failure
that tells whether a first chunk was ever stored. -/
def ReadsBack (base : String) (s : ChunkStore) (reading : Reading) : List WriterRecord → Prop
  | [] => reading = .refused (.backendUnavailable (.notFound base))
  | record :: _ =>
    (record.finished = true → reading = .complete record.accepted) ∧
    (record.finished = false → ¬s.HasStored (chunkKey base 0) →
      reading = .refused (.backendUnavailable (.notFound base))) ∧
    (record.finished = false → s.HasStored (chunkKey base 0) →
      reading = .refused (.corruptChunkSequence base .unterminated))

theorem Accounts.readsBack (haccounts : Accounts base records s) (hcountable : Countable records)
    (hcontents : t.contents = s.contents) (hloads : t.ServesLoads)
    (hsizes : ∀ turn, 0 < sizes turn) : ReadsBack base s (readValue sizes base t) records := by
  cases records with
  | nil =>
    obtain ⟨habsent, hnever⟩ := haccounts.never rfl
    exact (haccounts.tells.readValue sizes habsent hcontents hloads).1 hnever
  | cons record earlier =>
    obtain ⟨htells, hrecord, -⟩ := accounts_cons_iff.1 haccounts
    have hunfinished (hfinished : record.finished = false) :=
      htells.readValue sizes (hrecord.absent hfinished) hcontents hloads
    refine ⟨fun hfinished => ?_, fun hfinished => (hunfinished hfinished).1,
      fun hfinished => (hunfinished hfinished).2⟩
    obtain ⟨chunkSize, hvalue⟩ := hrecord.complete hfinished
    rw [← hcontents] at hvalue
    exact readValue_of_holdsValue hsizes hloads hvalue (hcountable record List.mem_cons_self)

end Reading

/-- After any run that begins with an empty store, every key reads back as the records of
its writers tell.  No writer of the key may have accepted more bytes than the manifest can
count. -/
theorem Session.readsBack_of_runs {id : StoreId} {v : Vault} {plan : FaultPlan}
    {session : Session} (hempty : v.stores.get id = { plan := plan })
    (hruns : Runs id (start v) session) (key : ContentKey)
    (hfits : ∀ record ∈ session.writers key, record.accepted.length < UInt64.size)
    (sizes : Nat → Nat) (hsizes : ∀ turn, 0 < sizes turn) :
    ReadsBack key.dataKey (session.vault.stores.get id)
      (readValue sizes key.dataKey ((session.vault.stores.get id).setPlan FaultPlan.none))
      (session.writers key) := by
  have haccounts := hruns.accounts hempty hfits
  have hcontents : ((session.vault.stores.get id).setPlan FaultPlan.none).contents =
      (session.vault.stores.get id).contents := rfl
  have hloads : ((session.vault.stores.get id).setPlan FaultPlan.none).ServesLoads :=
    fun _ _ => rfl
  exact haccounts.readsBack hfits hcontents hloads hsizes

/-- Operations on the writers of one key make a run. -/
theorem Session.exists_runs_of_turns (id : StoreId) (session : Session) (key : ContentKey)
    {q : List WriterRecord × ChunkStore}
    (hturns : Turns key.dataKey (session.writers key, session.vault.stores.get id) q) :
    ∃ session', Runs id session session' ∧ session'.writers key = q.1 ∧
      session'.vault.stores.get id = q.2 := by
  induction hturns with
  | refl => exact ⟨session, .refl, rfl, rfl⟩
  | @tail p q hturns hturn ih =>
    obtain ⟨session', hruns, hwriters, hstore⟩ := ih
    have hstep : Turn key.dataKey (session'.writers key, session'.vault.stores.get id) q := by
      rw [hwriters, hstore]
      exact hturn
    exact ⟨_, hruns.tail (.turn hstep), Function.update_self _ _ _, Stores.get_insert_self _ _ _⟩

def refuseSecondStore : FaultPlan :=
  fun tally _ => if tally.stores = 1 then some .engine else none

def refusingVault : Vault :=
  { Vault.ofTree .empty with stores := (∅ : Stores).insert 0 { plan := refuseSecondStore } }

/-- A value of which the first writer could not be finished is that of the second one. -/
theorem Session.readsBack_of_second_writer :
    ∃ session, Runs 0 (start refusingVault) session ∧
      readValue (fun _ => 2) (ContentKey.mk "k").dataKey
        ((session.vault.stores.get 0).setPlan FaultPlan.none) = .complete [7, 8, 9] := by
  obtain ⟨w₁, s₁, w₂, s₂, error, w₃, s₃, w₄, s₄, w₅, s₅, manifest, w₆, s₆, hcreate, hwrite, hfinish,
      hcreate', hwrite', hfinish'⟩ :
      ∃ w₁ s₁ w₂ s₂ error w₃ s₃ w₄ s₄ w₅ s₅ manifest w₆ s₆,
        ChunkWriter.create "k-data" ⟨2, by decide⟩ { plan := refuseSecondStore } = (.ok w₁, s₁) ∧
        w₁.write [1, 2, 3] s₁ = (.ok (), w₂, s₂) ∧
        w₂.finish s₂ = (.error error, w₃, s₃) ∧
        ChunkWriter.create "k-data" ⟨1, by decide⟩ s₃ = (.ok w₄, s₄) ∧
        w₄.write [7, 8, 9] s₄ = (.ok (), w₅, s₅) ∧
        w₅.finish s₅ = (.ok manifest, w₆, s₆) :=
    ⟨_, _, _, _, _, _, _, _, _, _, _, _, _, _, rfl, rfl, rfl, rfl, rfl, rfl⟩
  have hfailed : w₃.state ≠ .writing := (ChunkWriter.failed_of_finish hfinish).1
  have hidle : ∀ record ∈ [WriterRecord.mk [1, 2, 3] false (some w₃)], ¬record.Unfinished := by
    intro record hmem
    rw [List.mem_singleton.1 hmem]
    rintro ⟨w, hw, hwriting⟩
    cases hw
    exact hfailed hwriting
  have hturns : Turns "k-data" ([], { plan := refuseSecondStore })
      ([⟨[7, 8, 9], true, some w₆⟩, ⟨[1, 2, 3], false, some w₃⟩], s₆) := by
    have hnone : ∀ record ∈ ([] : List WriterRecord), ¬record.Unfinished :=
      fun _ hmem => absurd hmem List.not_mem_nil
    refine .head (.create hnone hcreate) (.head (@Turn.write _ [] [] [] _ _ _ _ _ _ _ hwrite)
      (.head (@Turn.finish _ [] [] _ _ _ _ _ _ _ hfinish) (.head (.create hidle hcreate')
        (.head (@Turn.write _ [] _ [] _ _ _ _ _ _ _ hwrite')
          (.single (@Turn.finish _ [] _ _ _ _ _ _ _ _ hfinish'))))))
  have hempty : refusingVault.stores.get 0 = { plan := refuseSecondStore } :=
    Stores.get_insert_self _ _ _
  rw [← hempty] at hturns
  obtain ⟨session, hruns, hwriters, -⟩ := exists_runs_of_turns 0 (start refusingVault) ⟨"k"⟩ hturns
  have hfits : ∀ record ∈ session.writers ⟨"k"⟩, record.accepted.length < UInt64.size := by
    rw [hwriters]
    simp [UInt64.size]
  have hreads := readsBack_of_runs hempty hruns ⟨"k"⟩ hfits (fun _ => 2) fun _ => by decide
  rw [hwriters] at hreads
  exact ⟨session, hruns, hreads.1 rfl⟩

/-- It is not so that the bytes of the last writer can be read once it is finished: they are lost
to an attempt to create another one with the largest chunks. -/
theorem readValue_after_panic :
    ∃ w₀ s₀ w₁ s₁ manifest w₂ s₂ s₃,
      ChunkWriter.create "k-data" ⟨3, by decide⟩ {} = (.ok w₀, s₀) ∧
      w₀.write [97, 98, 99] s₀ = (.ok (), w₁, s₁) ∧ w₁.finish s₁ = (.ok manifest, w₂, s₂) ∧
      ChunkWriter.create "k-data" ChunkWriter.hugeChunkSize s₂ = (.error .panicked, s₃) ∧
      readValue (fun _ => 2) "k-data" s₃ =
        .refused (.corruptChunkSequence "k-data" .unterminated) := by
  obtain ⟨w₀, s₀, w₁, s₁, manifest, w₂, s₂, s₃, hcreate, hwrite, hfinish, hpanics, hfirst, hloads⟩ :
      ∃ w₀ s₀ w₁ s₁ manifest w₂ s₂ s₃,
        ChunkWriter.create "k-data" ⟨3, by decide⟩ {} = (.ok w₀, s₀) ∧
        w₀.write [97, 98, 99] s₀ = (.ok (), w₁, s₁) ∧ w₁.finish s₁ = (.ok manifest, w₂, s₂) ∧
        ChunkWriter.create "k-data" ChunkWriter.hugeChunkSize s₂ = (.error .panicked, s₃) ∧
        s₃.contents[chunkKey "k-data" 0]? = some [97, 98, 99] ∧ s₃.ServesLoads :=
    ⟨_, _, _, _, _, _, _, _, rfl, rfl, rfl,
      ChunkWriter.create_of_not_allocatable (by decide) rfl rfl, by decide +kernel, fun _ _ => rfl⟩
  refine ⟨w₀, s₀, w₁, s₁, manifest, w₂, s₂, s₃, hcreate, hwrite, hfinish, hpanics, ?_⟩
  have habsent : s₃.contents["k-data"]? = none := by
    rw [(ChunkWriter.eq_of_create_panicked hpanics).2, Std.ExtTreeMap.getElem?_erase_self]
  rw [readValue_of_absent hloads habsent, hfirst]

end ContentVault
