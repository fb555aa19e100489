import ContentVault.Proofs.WriterInvariant

/-!
# The writers of one value

A value may be written by many writers, one after the other.  A record is kept of each:
the bytes it has accepted and whether finishing it has succeeded.  After every
operation that succeeds or fails, the store holds what the last record says.
-/

namespace ContentVault

open ChunkStore (Calls)

/-- What became of one writer. -/
structure WriterRecord where
  /-- The bytes of all writes that succeeded. -/
  accepted : Bytes
  /-- Whether finishing it has succeeded, and no panic has taken its value since. -/
  finished : Bool
  /-- The writer itself, until it is dropped or abandoned. -/
  writer : Option ChunkWriter

def WriterRecord.Unfinished (record : WriterRecord) : Prop :=
  ∃ w, record.writer = some w ∧ w.state = .writing

/-- The records once the manifest is gone: if the last writer had a value, it has none now. -/
def revoked : List WriterRecord → List WriterRecord
  | [] => []
  | last :: earlier => { last with finished := false } :: earlier

/-- One operation on a writer of the value under a base key, or a look at the store, with
the records of all writers of the value, the last one first.  A writer that cannot be
created either leaves everything as it was, if the store refuses a call, or takes the last
writer's value, if creating it panics. -/
inductive Turn (base : String) :
    List WriterRecord × ChunkStore → List WriterRecord × ChunkStore → Prop where
  | create {records : List WriterRecord} {s s' : ChunkStore} {chunkSize : ChunkSize}
      {w : ChunkWriter} (hidle : ∀ record ∈ records, ¬record.Unfinished)
      (hcreate : ChunkWriter.create base chunkSize s = (.ok w, s')) :
      Turn base (records, s) (⟨[], false, some w⟩ :: records, s')
  | createRefused {records : List WriterRecord} {s s' : ChunkStore} {chunkSize : ChunkSize}
      {error : VaultError}
      (hcreate : ChunkWriter.create base chunkSize s = (.error (.reported error), s')) :
      Turn base (records, s) (records, s')
  | createPanicked {records : List WriterRecord} {s s' : ChunkStore} {chunkSize : ChunkSize}
      (hcreate : ChunkWriter.create base chunkSize s = (.error .panicked, s')) :
      Turn base (records, s) (revoked records, s')
  | write {later earlier : List WriterRecord} {accepted data : Bytes} {finished : Bool}
      {w w' : ChunkWriter} {s s' : ChunkStore} {result : Except VaultError Unit}
      (hwrite : w.write data s = (result, w', s')) :
      Turn base (later ++ ⟨accepted, finished, some w⟩ :: earlier, s)
        (later ++ ⟨accepted ++ (if result.isOk then data else []), finished, some w'⟩ :: earlier,
          s')
  | finish {later earlier : List WriterRecord} {accepted : Bytes} {finished : Bool}
      {w w' : ChunkWriter} {s s' : ChunkStore} {result : Except VaultError Manifest}
      (hfinish : w.finish s = (result, w', s')) :
      Turn base (later ++ ⟨accepted, finished, some w⟩ :: earlier, s)
        (later ++ ⟨accepted, finished || result.isOk, some w'⟩ :: earlier, s')
  | drop {later earlier : List WriterRecord} {accepted : Bytes} {finished : Bool}
      {w : ChunkWriter} {s : ChunkStore} :
      Turn base (later ++ ⟨accepted, finished, some w⟩ :: earlier, s)
        (later ++ ⟨accepted, finished || (w.finish s).1.isOk, none⟩ :: earlier, w.drop s)
  | abandon {later earlier : List WriterRecord} {accepted : Bytes} {finished : Bool}
      {w : ChunkWriter} {s : ChunkStore} :
      Turn base (later ++ ⟨accepted, finished, some w⟩ :: earlier, s)
        (later ++ ⟨accepted, finished, none⟩ :: earlier, s)
  | look {records : List WriterRecord} {s s' : ChunkStore} (hcalls : Calls Call.IsLoad s s') :
      Turn base (records, s) (records, s')

def Based (base : String) (records : List WriterRecord) : Prop :=
  ∀ record ∈ records, ∀ w, record.writer = some w → w.base = base

/-- No writer on record has accepted more bytes than a manifest can tell. -/
def Countable (records : List WriterRecord) : Prop :=
  ∀ record ∈ records, record.accepted.length < UInt64.size

structure WriterRecord.Describes (record : WriterRecord) (base : String) (contents : Contents) :
    Prop where
  complete : record.finished = true →
    ∃ chunkSize, contents.HoldsValue base chunkSize record.accepted
  absent : record.finished = false → contents[base]? = none
  writing : ∀ w, record.writer = some w → w.state = .writing →
    record.finished = false ∧ w.Holds contents record.accepted

/-- The store is as the records of all writers of a value tell. -/
structure Accounts (base : String) (records : List WriterRecord) (s : ChunkStore) : Prop where
  tells : s.Tells (chunkKey base 0)
  never : records = [] → s.contents[base]? = none ∧ ¬s.HasStored (chunkKey base 0)
  last : ∀ record earlier, records = record :: earlier →
    record.Describes base s.contents ∧ ∀ record ∈ earlier, ¬record.Unfinished

variable {base : String} {records later earlier : List WriterRecord} {s s' : ChunkStore}
  {accepted : Bytes} {finished : Bool} {w w' : ChunkWriter}

theorem WriterRecord.Describes.congr {record : WriterRecord} {contents contents' : Contents}
    (hrecord : record.Describes base contents)
    (hbased : ∀ w, record.writer = some w → w.base = base)
    (hkeeps : ∀ key, Occupies base key → contents'[key]? = contents[key]?) :
    record.Describes base contents' where
  complete hfinished := by
    obtain ⟨chunkSize, hvalue⟩ := hrecord.complete hfinished
    exact ⟨chunkSize, hvalue.congr hkeeps⟩
  absent hfinished := (hkeeps base (.base base)).trans (hrecord.absent hfinished)
  writing w hw hwriting := by
    obtain ⟨hfinished, hholds⟩ := hrecord.writing w hw hwriting
    rw [← hbased w hw] at hkeeps
    exact ⟨hfinished, hholds.congr hkeeps⟩

/-- What the records tell stays true as long as no key that the value occupies is
changed. -/
theorem Accounts.congr (haccounts : Accounts base records s) (hbased : Based base records)
    (hkeeps : ∀ key, Occupies base key → s'.contents[key]? = s.contents[key]?)
    (hstored : s'.HasStored (chunkKey base 0) ↔ s.HasStored (chunkKey base 0)) :
    Accounts base records s' where
  tells := by
    rw [ChunkStore.Tells, hkeeps _ (.chunk base 0), hstored]
    exact haccounts.tells
  never hnever := by
    rw [hkeeps _ (.base base), hstored]
    exact haccounts.never hnever
  last record earlier hrecords := by
    obtain ⟨hrecord, hearlier⟩ := haccounts.last record earlier hrecords
    refine ⟨hrecord.congr (hbased record ?_) hkeeps, hearlier⟩
    rw [hrecords]
    exact List.mem_cons_self

theorem Accounts.of_calls {Allowed : Call → Prop} (haccounts : Accounts base records s)
    (hbased : Based base records) (hcalls : Calls Allowed s s')
    (hkeeps : ∀ call, Allowed call → ∀ key, Occupies base key → ¬call.Alters key) :
    Accounts base records s' :=
  haccounts.congr hbased
    (fun key hkey => hcalls.getElem?_eq fun call hcall => hkeeps call hcall key hkey)
    (hcalls.hasStored_iff fun call hcall => hkeeps call hcall _ (.chunk base 0))

/-- In an empty store no writer has been. -/
theorem Accounts.empty (base : String) (plan : FaultPlan) :
    Accounts base [] { plan := plan } := by
  have habsent (key : String) : (∅ : Contents)[key]? = none :=
    Std.ExtTreeMap.getElem?_empty
  have hnothing (key : String) : ¬({ plan := plan } : ChunkStore).HasStored key := by
    rintro ⟨value, hmem⟩
    exact List.not_mem_nil hmem
  have htells : ({ plan := plan } : ChunkStore).Tells (chunkKey base 0) := by
    rw [ChunkStore.Tells, habsent]
    exact iff_of_false Bool.false_ne_true (hnothing _)
  refine ⟨htells, fun _ => ⟨habsent _, hnothing _⟩, ?_⟩
  intro record earlier hrecords
  exact absurd hrecords.symm (List.cons_ne_nil _ _)

/-- The account of a value that has had a writer is that of the last one. -/
theorem accounts_cons_iff {record : WriterRecord} :
    Accounts base (record :: earlier) s ↔ s.Tells (chunkKey base 0) ∧
      record.Describes base s.contents ∧ ∀ record ∈ earlier, ¬record.Unfinished := by
  constructor
  · intro haccounts
    exact ⟨haccounts.tells, haccounts.last record earlier rfl⟩
  · rintro ⟨htells, hlast⟩
    refine ⟨htells, fun hnever => absurd hnever (List.cons_ne_nil _ _), ?_⟩
    intro record' earlier' hrecords
    cases hrecords
    exact hlast

/-- Only the last writer can still accept bytes. -/
theorem Accounts.eq_nil_of_unfinished {record : WriterRecord}
    (haccounts : Accounts base (later ++ record :: earlier) s) (hunfinished : record.Unfinished) :
    later = [] := by
  cases later with
  | nil => rfl
  | cons last later =>
    have hidle := (accounts_cons_iff.1 haccounts).2.2
    exact absurd hunfinished (hidle record (by simp))

/-- A writer that is given up changes no account. -/
theorem Accounts.forget
    (haccounts : Accounts base (later ++ ⟨accepted, finished, some w⟩ :: earlier) s) :
    Accounts base (later ++ ⟨accepted, finished, none⟩ :: earlier) s := by
  cases later with
  | nil =>
    obtain ⟨htells, hrecord, hearlier⟩ := accounts_cons_iff.1 haccounts
    refine accounts_cons_iff.2 ⟨htells, ⟨hrecord.complete, hrecord.absent, ?_⟩, hearlier⟩
    intro w' hw'
    cases hw'
  | cons last later =>
    obtain ⟨htells, hrecord, hearlier⟩ := accounts_cons_iff.1 haccounts
    refine accounts_cons_iff.2 ⟨htells, hrecord, ?_⟩
    intro record hmem
    rcases List.mem_append.1 hmem with hlater | hrest
    · exact hearlier record (List.mem_append_left _ hlater)
    · rcases List.mem_cons.1 hrest with rfl | hearlier'
      · rintro ⟨w, hw, -⟩
        cases hw
      · exact hearlier record (List.mem_append_right _ (List.mem_cons_of_mem _ hearlier'))

/-- Beginning a value neither stores nor removes its first chunk. -/
theorem not_alters_of_calls_create {call : Call} (hcall : call = .load base ∨ call = .remove base) :
    ¬call.Alters (chunkKey base 0) := by
  rcases hcall with rfl | rfl
  · rintro (⟨value, heq⟩ | heq)
    · cases heq
    · cases heq
  · rintro (⟨value, heq⟩ | heq)
    · cases heq
    · exact chunkKey_ne_self base 0 (Call.remove.inj heq).symm

theorem Accounts.tells_create (haccounts : Accounts base records s) (chunkSize : ChunkSize) :
    (ChunkWriter.create base chunkSize s).2.Tells (chunkKey base 0) :=
  (ChunkWriter.calls_create base chunkSize s).tells
    (fun _ hcall heq => not_alters_of_calls_create hcall (.inr heq)) haccounts.tells

theorem Accounts.create {chunkSize : ChunkSize} (haccounts : Accounts base records s)
    (hidle : ∀ record ∈ records, ¬record.Unfinished)
    (hcreate : ChunkWriter.create base chunkSize s = (.ok w, s')) :
    Accounts base (⟨[], false, some w⟩ :: records) s' := by
  obtain ⟨hbase, -, hw⟩ := ChunkWriter.Holds.create hcreate
  have htells := haccounts.tells_create chunkSize
  rw [hcreate] at htells
  refine accounts_cons_iff.2 ⟨htells, ⟨?_, fun _ => ?_, ?_⟩, hidle⟩
  · exact fun hfinished => absurd hfinished Bool.false_ne_true
  · rw [← hbase]
    exact hw.unclosed
  · intro w' hw' _
    cases hw'
    exact ⟨rfl, hw⟩

theorem Accounts.createRefused {chunkSize : ChunkSize} {error : VaultError}
    (haccounts : Accounts base records s) (hbased : Based base records)
    (hcreate : ChunkWriter.create base chunkSize s = (.error (.reported error), s')) :
    Accounts base records s' := by
  have hcalls := ChunkWriter.calls_create base chunkSize s
  rw [hcreate] at hcalls
  refine haccounts.congr hbased (fun key _ => ?_)
    (hcalls.hasStored_iff fun call hcall => not_alters_of_calls_create hcall)
  rw [(ChunkWriter.eq_of_create_error hcreate).2]

/-- A panic takes the value of a writer that has finished.  A writer that has not has no
manifest to lose. -/
theorem Accounts.createPanicked {chunkSize : ChunkSize} (haccounts : Accounts base records s)
    (hcreate : ChunkWriter.create base chunkSize s = (.error .panicked, s')) :
    Accounts base (revoked records) s' := by
  have hcalls := ChunkWriter.calls_create base chunkSize s
  have htells := haccounts.tells_create chunkSize
  rw [hcreate] at hcalls htells
  have herased := (ChunkWriter.eq_of_create_panicked hcreate).2
  have habsent : s'.contents[base]? = none := by
    rw [herased, Std.ExtTreeMap.getElem?_erase_self]
  cases records with
  | nil =>
    refine ⟨htells, fun _ => ⟨habsent, ?_⟩, fun _ _ hrecords => by cases hrecords⟩
    rw [hcalls.hasStored_iff fun call hcall => not_alters_of_calls_create hcall]
    exact (haccounts.never rfl).2
  | cons record earlier =>
    obtain ⟨-, hrecord, hearlier⟩ := accounts_cons_iff.1 haccounts
    refine accounts_cons_iff.2 ⟨htells, ⟨?_, fun _ => habsent, ?_⟩, hearlier⟩
    · exact fun hfinished => absurd hfinished Bool.false_ne_true
    · intro w hw hwriting
      obtain ⟨hunfinished, hholds⟩ := hrecord.writing w hw hwriting
      refine ⟨rfl, hholds.congr fun key _ => ?_⟩
      by_cases heq : base = key
      · rw [← heq, habsent, hrecord.absent hunfinished]
      · simp [herased, Std.ExtTreeMap.getElem?_erase, heq]

theorem Accounts.write {data : Bytes} {result : Except VaultError Unit}
    (haccounts : Accounts base (later ++ ⟨accepted, finished, some w⟩ :: earlier) s)
    (hbase : w.base = base) (hwrite : w.write data s = (result, w', s'))
    (hfits : (accepted ++ (if result.isOk then data else [])).length < UInt64.size) :
    Accounts base
      (later ++ ⟨accepted ++ (if result.isOk then data else []), finished, some w'⟩ :: earlier)
      s' := by
  by_cases hwriting : w.state = .writing
  · obtain rfl := haccounts.eq_nil_of_unfinished ⟨w, rfl, hwriting⟩
    obtain ⟨htells, hrecord, hearlier⟩ := accounts_cons_iff.1 haccounts
    obtain ⟨hunfinished, hw⟩ := hrecord.writing w rfl hwriting
    have hcalls := ChunkWriter.calls_write w data s
    rw [hwrite, hbase] at hcalls
    have htells' := hcalls.tells (fun call hcall => hcall.ne_remove) htells
    have habsent : s'.contents[base]? = none := by
      rw [hcalls.getElem?_eq fun call hcall => hcall.not_alters_base]
      exact hrecord.absent hunfinished
    refine accounts_cons_iff.2 ⟨htells', ⟨fun hfinished => ?_, fun _ => habsent, ?_⟩, hearlier⟩
    · rw [hunfinished] at hfinished
      cases hfinished
    · intro w'' hw'' hwriting'
      cases hw''
      cases result with
      | error error => exact absurd hwriting' (ChunkWriter.failed_of_write hwrite)
      | ok _ => exact ⟨hunfinished, (hw.write hfits hwrite).2.2⟩
  · obtain ⟨error, heq⟩ := ChunkWriter.write_of_not_writing hwriting data s
    rw [heq] at hwrite
    cases hwrite
    change Accounts base (later ++ ⟨accepted ++ [], finished, some w⟩ :: earlier) s
    rw [List.append_nil]
    exact haccounts

theorem Accounts.finish {result : Except VaultError Manifest}
    (haccounts : Accounts base (later ++ ⟨accepted, finished, some w⟩ :: earlier) s)
    (hbase : w.base = base) (hfinish : w.finish s = (result, w', s'))
    (hfits : accepted.length < UInt64.size) :
    Accounts base (later ++ ⟨accepted, finished || result.isOk, some w'⟩ :: earlier) s' := by
  by_cases hwriting : w.state = .writing
  · obtain rfl := haccounts.eq_nil_of_unfinished ⟨w, rfl, hwriting⟩
    obtain ⟨htells, hrecord, hearlier⟩ := accounts_cons_iff.1 haccounts
    obtain ⟨hunfinished, hw⟩ := hrecord.writing w rfl hwriting
    have htells' := hw.tells_finish hfits (by rw [hbase]; exact htells)
    rw [hfinish, hbase] at htells'
    refine accounts_cons_iff.2 ⟨htells', ?_, hearlier⟩
    change finished = false at hunfinished
    rw [hunfinished, Bool.false_or]
    cases result with
    | error error =>
      obtain ⟨hfailed, hkept⟩ := ChunkWriter.failed_of_finish hfinish
      rw [hbase] at hkept
      refine ⟨fun hfinished => absurd hfinished Bool.false_ne_true,
        fun _ => hkept.trans (hrecord.absent hunfinished), ?_⟩
      intro w'' hw'' hwriting'
      cases hw''
      exact absurd hwriting' hfailed
    | ok manifest =>
      obtain ⟨hfinished, -, hvalue⟩ := hw.finish hfinish
      rw [hbase] at hvalue
      refine ⟨fun _ => ⟨w.chunkSize, hvalue⟩,
        fun hunfinished' => absurd hunfinished'.symm Bool.false_ne_true, ?_⟩
      intro w'' hw'' hwriting'
      cases hw''
      rw [hfinished] at hwriting'
      cases hwriting'
  · obtain ⟨error, heq⟩ := ChunkWriter.finish_of_not_writing hwriting s
    rw [heq] at hfinish
    cases hfinish
    change Accounts base (later ++ ⟨accepted, finished || false, some w⟩ :: earlier) s
    rw [Bool.or_false]
    exact haccounts

theorem Accounts.drop
    (haccounts : Accounts base (later ++ ⟨accepted, finished, some w⟩ :: earlier) s)
    (hbase : w.base = base) (hfits : accepted.length < UInt64.size) :
    Accounts base (later ++ ⟨accepted, finished || (w.finish s).1.isOk, none⟩ :: earlier)
      (w.drop s) := by
  rw [ChunkWriter.drop_eq]
  exact (haccounts.finish hbase rfl hfits).forget

theorem Based.replace {record record' : WriterRecord}
    (hbased : Based base (later ++ record :: earlier))
    (hrecord : ∀ w, record'.writer = some w → w.base = base) :
    Based base (later ++ record' :: earlier) := by
  intro other hmem
  rcases List.mem_append.1 hmem with hlater | hrest
  · exact hbased other (List.mem_append_left _ hlater)
  · rcases List.mem_cons.1 hrest with rfl | hearlier
    · exact hrecord
    · exact hbased other (List.mem_append_right _ (List.mem_cons_of_mem _ hearlier))

theorem Based.revoked (hbased : Based base records) : Based base (revoked records) := by
  cases records with
  | nil => exact hbased
  | cons last earlier =>
    intro record hmem w hw
    rcases List.mem_cons.1 hmem with rfl | hearlier
    · exact hbased last List.mem_cons_self w hw
    · exact hbased record (List.mem_cons_of_mem _ hearlier) w hw

theorem Based.of_mem (hbased : Based base (later ++ ⟨accepted, finished, some w⟩ :: earlier)) :
    w.base = base :=
  hbased _ (List.mem_append_right _ List.mem_cons_self) w rfl

theorem Countable.replace {record record' : WriterRecord}
    (hcountable : Countable (later ++ record' :: earlier))
    (hgrows : record.accepted.length ≤ record'.accepted.length) :
    Countable (later ++ record :: earlier) := by
  intro other hmem
  rcases List.mem_append.1 hmem with hlater | hrest
  · exact hcountable other (List.mem_append_left _ hlater)
  · rcases List.mem_cons.1 hrest with rfl | hearlier
    · exact Nat.lt_of_le_of_lt hgrows
        (hcountable record' (List.mem_append_right _ List.mem_cons_self))
    · exact hcountable other (List.mem_append_right _ (List.mem_cons_of_mem _ hearlier))

theorem countable_revoked_iff : Countable (revoked records) ↔ Countable records := by
  cases records with
  | nil => exact Iff.rfl
  | cons last earlier => simp [Countable, revoked]

namespace Turn

variable {records' : List WriterRecord}

theorem based (hturn : Turn base (records, s) (records', s')) (hbased : Based base records) :
    Based base records' := by
  cases hturn with
  | create hidle hcreate =>
    intro record hmem w hw
    rcases List.mem_cons.1 hmem with rfl | hold
    · cases hw
      exact (ChunkWriter.Holds.create hcreate).1
    · exact hbased record hold w hw
  | createRefused hcreate => exact hbased
  | createPanicked hcreate => exact hbased.revoked
  | @write _ _ _ data _ w _ _ _ _ hwrite =>
    apply hbased.replace
    intro w' hw'
    cases hw'
    have hkept := ChunkWriter.base_write w data s
    rw [hwrite] at hkept
    exact hkept.trans hbased.of_mem
  | @finish _ _ _ _ w _ _ _ _ hfinish =>
    apply hbased.replace
    intro w' hw'
    cases hw'
    have hkept := ChunkWriter.base_finish w s
    rw [hfinish] at hkept
    exact hkept.trans hbased.of_mem
  | drop => exact hbased.replace fun w' hw' => by cases hw'
  | abandon => exact hbased.replace fun w' hw' => by cases hw'
  | look hcalls => exact hbased

/-- The bytes that a writer has accepted only become more. -/
theorem countable (hturn : Turn base (records, s) (records', s'))
    (hcountable : Countable records') : Countable records := by
  cases hturn with
  | create hidle hcreate => exact fun record hmem => hcountable record (List.mem_cons_of_mem _ hmem)
  | createRefused hcreate => exact hcountable
  | createPanicked hcreate => exact countable_revoked_iff.1 hcountable
  | write hwrite =>
    apply hcountable.replace
    rw [List.length_append]
    exact Nat.le_add_right _ _
  | finish hfinish => exact hcountable.replace (Nat.le_refl _)
  | drop => exact hcountable.replace (Nat.le_refl _)
  | abandon => exact hcountable.replace (Nat.le_refl _)
  | look hcalls => exact hcountable

/-- An operation only looks at keys that the value does not occupy. -/
theorem calls (hturn : Turn base (records, s) (records', s')) (hbased : Based base records) :
    Calls (fun call => call.IsLoad ∨ call.Within base) s s' := by
  have hwithin (hcalls : Calls (Call.Within base) s s') :
      Calls (fun call => call.IsLoad ∨ call.Within base) s s' :=
    hcalls.mono fun call hcall => .inr hcall
  cases hturn with
  | @create _ _ _ chunkSize _ hidle hcreate =>
    have hcalls := ChunkWriter.calls_create_within base chunkSize s
    rw [hcreate] at hcalls
    exact hwithin hcalls
  | @createRefused _ _ _ chunkSize _ hcreate =>
    have hcalls := ChunkWriter.calls_create_within base chunkSize s
    rw [hcreate] at hcalls
    exact hwithin hcalls
  | @createPanicked _ _ _ chunkSize hcreate =>
    have hcalls := ChunkWriter.calls_create_within base chunkSize s
    rw [hcreate] at hcalls
    exact hwithin hcalls
  | @write _ _ _ data _ w _ _ _ _ hwrite =>
    have hcalls := ChunkWriter.calls_write w data s
    rw [hwrite, hbased.of_mem] at hcalls
    exact hwithin (hcalls.mono fun call hcall => hcall.within)
  | @finish _ _ _ _ w _ _ _ _ hfinish =>
    have hcalls := ChunkWriter.calls_finish w s
    rw [hfinish, hbased.of_mem] at hcalls
    exact hwithin hcalls
  | @drop _ _ _ _ w _ =>
    have hcalls := ChunkWriter.calls_finish w s
    rw [← ChunkWriter.drop_eq, hbased.of_mem] at hcalls
    exact hwithin hcalls
  | abandon => exact Calls.refl s
  | look hcalls => exact hcalls.mono fun call hcall => .inl hcall

/-- After every operation the store is as the records tell. -/
theorem accounts (hturn : Turn base (records, s) (records', s')) (hbased : Based base records)
    (hcountable : Countable records') (haccounts : Accounts base records s) :
    Accounts base records' s' := by
  cases hturn with
  | create hidle hcreate => exact haccounts.create hidle hcreate
  | createRefused hcreate => exact haccounts.createRefused hbased hcreate
  | createPanicked hcreate => exact haccounts.createPanicked hcreate
  | write hwrite =>
    exact haccounts.write hbased.of_mem hwrite
      (hcountable _ (List.mem_append_right _ List.mem_cons_self))
  | finish hfinish =>
    exact haccounts.finish hbased.of_mem hfinish
      (hcountable _ (List.mem_append_right _ List.mem_cons_self))
  | drop =>
    exact haccounts.drop hbased.of_mem
      (hcountable _ (List.mem_append_right _ List.mem_cons_self))
  | abandon => exact haccounts.forget
  | look hcalls =>
    exact haccounts.of_calls hbased hcalls fun call hcall key _ => hcall.not_alters key

end Turn

abbrev Turns (base : String) :
    List WriterRecord × ChunkStore → List WriterRecord × ChunkStore → Prop :=
  Relation.ReflTransGen (Turn base)

namespace Turns

variable {p q : List WriterRecord × ChunkStore}

theorem based (hturns : Turns base p q) (hbased : Based base p.1) : Based base q.1 := by
  induction hturns with
  | refl => exact hbased
  | tail _ hturn ih => exact hturn.based ih

theorem countable (hturns : Turns base p q) (hcountable : Countable q.1) : Countable p.1 := by
  induction hturns with
  | refl => exact hcountable
  | tail _ hturn ih => exact ih (hturn.countable hcountable)

theorem calls (hturns : Turns base p q) (hbased : Based base p.1) :
    Calls (fun call => call.IsLoad ∨ call.Within base) p.2 q.2 := by
  induction hturns with
  | refl => exact Calls.refl _
  | tail hturns hturn ih => exact ih.trans (hturn.calls (based hturns hbased))

theorem accounts (hturns : Turns base p q) (hbased : Based base p.1) (hcountable : Countable q.1)
    (haccounts : Accounts base p.1 p.2) : Accounts base q.1 q.2 := by
  induction hturns with
  | refl => exact haccounts
  | tail hturns hturn ih =>
    exact hturn.accounts (based hturns hbased) hcountable (ih (hturn.countable hcountable))

end Turns

end ContentVault
