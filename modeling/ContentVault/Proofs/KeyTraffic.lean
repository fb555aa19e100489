import ContentVault.Proofs.ReadingWhileOverwritten

/-!
# Values of many keys in one store

The values of all content keys lie in one key space, and whoever works on a value has its content
key only.  Whatever is done under content keys, no matter how it alternates, stays within the keys
that the values of these content keys occupy: the entries of any other value are neither looked
up nor changed nor removed.
-/

namespace ContentVault

open ChunkStore (Calls)

/-! ### Calls for other keys -/

section Apart

variable {key other : ContentKey} {name : String} {call : Call}

/-- A call for the value of a content key is for no key of another value. -/
theorem Call.Within.key_ne (hwithin : call.Within key.dataKey) (hne : key ≠ other)
    (hname : Occupies other.dataKey name) : call.key ≠ name := by
  rintro rfl
  exact hne (Occupies.unique hwithin hname)

/-- Between two states of a store no call was made for a key, and it has the value it had. -/
def ChunkStore.Untouched (name : String) (s t : ChunkStore) : Prop :=
  t.contents[name]? = s.contents[name]? ∧ ∀ event ∈ s.eventsSince t, event.call.key ≠ name

theorem ChunkStore.Calls.untouched {Allowed : Call → Prop} {s t : ChunkStore}
    (hcalls : Calls Allowed s t) (hkeys : ∀ call, Allowed call → call.key ≠ name) :
    s.Untouched name t :=
  ⟨hcalls.getElem?_eq fun call hallowed halters =>
      hkeys call hallowed (Call.key_eq_of_alters halters),
    fun _ hmem => hkeys _ (hcalls.of_mem_eventsSince hmem)⟩

end Apart

/-! ### Operations on one value -/

namespace WriterCall

/-- Whatever a writer is asked, its calls are for the keys of its value. -/
theorem calls_perform_within (call : WriterCall) (w : ChunkWriter) (s : ChunkStore) :
    Calls (Call.Within w.base) s (call.perform w s).2.2 := by
  have hwrite (data : Bytes) : Calls (Call.Within w.base) s (w.write data s).2.2 :=
    (ChunkWriter.calls_write w data s).mono fun _ hcall => hcall.within
  cases call with
  | finish => exact ChunkWriter.calls_finish w s
  | feed input =>
    cases input with
    | write data => exact hwrite data
    | stream data =>
      rw [ChunkWriter.perform_stream]
      exact hwrite data
    | flush => exact Calls.refl s

theorem base_perform (call : WriterCall) (w : ChunkWriter) (s : ChunkStore) :
    (call.perform w s).2.1.base = w.base := by
  cases call with
  | finish => exact ChunkWriter.base_finish w s
  | feed input =>
    cases input with
    | write data => exact ChunkWriter.base_write w data s
    | stream data =>
      rw [ChunkWriter.perform_stream]
      exact ChunkWriter.base_write w data s
    | flush => rfl

end WriterCall

theorem ChunkWriter.calls_drop (w : ChunkWriter) (s : ChunkStore) :
    Calls (Call.Within w.base) s (w.drop s) := by
  rw [ChunkWriter.drop_eq]
  exact ChunkWriter.calls_finish w s

theorem ChunkReader.base_of_create {base : String} {s s' : ChunkStore} {r : ChunkReader}
    (hcreate : ChunkReader.create base s = (.ok r, s')) : r.base = base := by
  obtain ⟨manifest, rfl, -⟩ := ChunkReader.eq_of_create_ok hcreate
  rfl

namespace Entry

/-- A call that storing a source makes: for a key of the new value, or to look up a key of the
value that the source itself hands out. -/
def ByStoring (id : StoreId) (base : String) (source : Source) (call : Call) : Prop :=
  call.Within base ∨ source.Looks id call

section Store

variable {id : StoreId} {source after : Source} {stores stores' : Stores}

theorem calls_of_read {base : String} {result : Except IoError Bytes}
    (hread : source.read copySize stores = (result, after, stores')) :
    Calls (ByStoring id base source) (stores.get id) (stores'.get id) := by
  have hcalls := source.looks_read copySize stores id
  rw [hread] at hcalls
  exact hcalls.mono fun _ hlooks => .inr hlooks

theorem byStoring_of_read {base : String} {result : Except IoError Bytes}
    (hread : source.read copySize stores = (result, after, stores')) :
    ByStoring id base after = ByStoring id base source := by
  have hbase := source.base?_read copySize stores id
  rw [hread] at hbase
  funext call
  rw [ByStoring, ByStoring, Source.Looks, Source.Looks, hbase]

/-- Copying writes within the value of its writer, and reads what its source hands out. -/
theorem Copies.calls_byStoring {w : ChunkWriter} {bytes : Bytes} {copied : Copied}
    (hcopies : Copies id w source stores bytes copied) :
    Calls (ByStoring id w.base source) (stores.get id) (copied.stores.get id) ∧
      copied.writer.base = w.base := by
  have hwrites {w w' : ChunkWriter} {data : Bytes} {source : Source} {s s' : ChunkStore}
      {result : Except VaultError Unit} (hwrite : w.write data s = (result, w', s')) :
      Calls (ByStoring id w.base source) s s' ∧ w'.base = w.base := by
    have hcalls := ChunkWriter.calls_write w data s
    have hbase := ChunkWriter.base_write w data s
    rw [hwrite] at hcalls hbase
    exact ⟨hcalls.mono fun _ hcall => .inl hcall.within, hbase⟩
  induction hcopies with
  | ended hread => exact ⟨calls_of_read hread, rfl⟩
  | accepted hread hpiece hwrite hrest ih =>
    obtain ⟨hcalls, hbase⟩ := hwrites hwrite
    rw [Stores.get_insert_self, hbase, byStoring_of_read hread] at ih
    exact ⟨((calls_of_read hread).trans hcalls).trans ih.1, ih.2⟩
  | rejected hread hpiece hwrite =>
    obtain ⟨hcalls, hbase⟩ := hwrites hwrite
    refine ⟨(calls_of_read hread).trans ?_, hbase⟩
    rw [Stores.get_insert_self]
    exact hcalls
  | again hread hinterrupted hrest ih =>
    rw [byStoring_of_read hread] at ih
    exact ⟨(calls_of_read hread).trans ih.1, ih.2⟩
  | failed hread hinterrupted => exact ⟨calls_of_read hread, rfl⟩

/-- Storing a source makes calls for the keys of the new value, apart from those by which the
source is read. -/
theorem calls_store (config : StoreConfig) (chunkSize : ChunkSize) (key : ContentKey)
    (source : Source) (v : Vault) :
    Calls (ByStoring id key.dataKey source) (v.stores.get id)
      (((Entry.mk (.chunked ⟨id, config⟩ chunkSize) key).store source v).2.2.stores.get id) := by
  have hbegin : Calls (ByStoring id key.dataKey source) (v.stores.get id)
      (ChunkWriter.create key.dataKey chunkSize (v.stores.get id)).2 :=
    (ChunkWriter.calls_create_within key.dataKey chunkSize _).mono fun _ hwithin => .inl hwithin
  rcases hcreate : ChunkWriter.create key.dataKey chunkSize (v.stores.get id) with ⟨error | w, s⟩
  · have hrefused := @storeChunks_of_create_error key ⟨id, config⟩ chunkSize source v.stores s error
      hcreate
    rw [hcreate] at hbegin
    simp only [store, hrefused, Stores.get_insert_self]
    exact hbegin
  · obtain ⟨bytes, hcopies⟩ := exists_copies id w source (v.stores.insert id s)
    have hstored := @storeChunks_of_copies key ⟨id, config⟩ chunkSize source v.stores w s bytes _
      hcreate hcopies
    obtain ⟨⟨replaced, hwriter⟩, -⟩ := ChunkWriter.eq_of_create_ok hcreate
    have hbase : w.base = key.dataKey := by rw [hwriter]
    obtain ⟨hcopied, hcopiedBase⟩ := hcopies.calls_byStoring
    have hfinish := ChunkWriter.calls_finish (copyToWriter id w source (v.stores.insert id s)).writer
      ((copyToWriter id w source (v.stores.insert id s)).stores.get id)
    rw [hcreate] at hbegin
    rw [Stores.get_insert_self, hbase] at hcopied
    rw [hcopiedBase, hbase] at hfinish
    simp only [store, hstored, Stores.get_insert_self]
    exact (hbegin.trans hcopied).trans (hfinish.mono fun _ hwithin => .inl hwithin)

end Store

end Entry

/-! ### Runs of operations -/

/-- A store, and by content key the writers and readers that are at work on the values in it. -/
structure Workplace where
  store : ChunkStore
  writers : ContentKey → List ChunkWriter
  readers : ContentKey → List ChunkReader

namespace Workplace

def start (s : ChunkStore) : Workplace :=
  ⟨s, fun _ => [], fun _ => []⟩

/-- Writers of one value take the place of others, and have left the store like this. -/
def withWriters (p : Workplace) (key : ContentKey) (writers : List ChunkWriter) (s : ChunkStore) :
    Workplace :=
  { p with store := s, writers := Function.update p.writers key writers }

def withReaders (p : Workplace) (key : ContentKey) (readers : List ChunkReader) (s : ChunkStore) :
    Workplace :=
  { p with store := s, readers := Function.update p.readers key readers }

@[simp]
theorem writers_withWriters (p : Workplace) (key : ContentKey) (writers : List ChunkWriter)
    (s : ChunkStore) : (p.withWriters key writers s).writers key = writers := by
  simp [withWriters]

/-- One operation under a content key, whatever becomes of it.  A source that is stored is not
read from the same store. -/
inductive Step (key : ContentKey) : Workplace → Workplace → Prop where
  | begin (p : Workplace) (chunkSize : ChunkSize) {result : Except (Failure VaultError) ChunkWriter}
      {s : ChunkStore} (hcreate : ChunkWriter.create key.dataKey chunkSize p.store = (result, s)) :
      Step key p (p.withWriters key (result.toOption.toList ++ p.writers key) s)
  | ask (p : Workplace) (call : WriterCall) {before after : List ChunkWriter} {w : ChunkWriter}
      (hwriters : p.writers key = before ++ w :: after) :
      Step key p (p.withWriters key (before ++ (call.perform w p.store).2.1 :: after)
        (call.perform w p.store).2.2)
  | drop (p : Workplace) {before after : List ChunkWriter} {w : ChunkWriter}
      (hwriters : p.writers key = before ++ w :: after) :
      Step key p (p.withWriters key (before ++ after) (w.drop p.store))
  | put (p : Workplace) {v : Vault} {id : StoreId} (config : StoreConfig) (chunkSize : ChunkSize)
      (source : Source) (hstore : v.stores.get id = p.store) (hsource : source.base? id = none) :
      Step key p { p with
        store := ((Entry.mk (.chunked ⟨id, config⟩ chunkSize) key).store source
          v).2.2.stores.get id }
  | view (p : Workplace) {result : Except VaultError ChunkReader} {s : ChunkStore}
      (hcreate : ChunkReader.create key.dataKey p.store = (result, s)) :
      Step key p (p.withReaders key (result.toOption.toList ++ p.readers key) s)
  | read (p : Workplace) (size : Nat) {before after : List ChunkReader} {r : ChunkReader}
      (hreaders : p.readers key = before ++ r :: after) :
      Step key p (p.withReaders key (before ++ (r.read size p.store).2.1 :: after)
        (r.read size p.store).2.2)

abbrev Runs (Keys : ContentKey → Prop) : Workplace → Workplace → Prop :=
  Relation.ReflTransGen fun p q => ∃ key, Keys key ∧ Step key p q

/-- Everyone works on the value of their content key. -/
structure Placed (p : Workplace) : Prop where
  writers : ∀ key, ∀ w ∈ p.writers key, w.base = key.dataKey
  readers : ∀ key, ∀ r ∈ p.readers key, r.base = key.dataKey

variable {key other : ContentKey} {p q : Workplace}

theorem placed_start (s : ChunkStore) : (start s).Placed :=
  ⟨fun _ _ hmem => absurd hmem List.not_mem_nil, fun _ _ hmem => absurd hmem List.not_mem_nil⟩

/-- What holds of all entries of a list under each key still does if those of one key are
replaced. -/
theorem forall_update {α : Type} {Good : ContentKey → α → Prop} {entries : ContentKey → List α}
    {replaced : List α} (hentries : ∀ key, ∀ entry ∈ entries key, Good key entry)
    (hreplaced : ∀ entry ∈ replaced, Good key entry) (other : ContentKey) :
    ∀ entry ∈ Function.update entries key replaced other, Good other entry := by
  by_cases heq : other = key
  · subst heq
    rw [Function.update_self]
    exact hreplaced
  · rw [Function.update_of_ne heq]
    exact hentries other

/-- A step makes calls for the value of its content key, and everyone stays with theirs. -/
theorem Step.calls (hstep : Step key p q) (hplaced : p.Placed) :
    Calls (Call.Within key.dataKey) p.store q.store ∧ q.Placed := by
  cases hstep with
  | @begin chunkSize result s hcreate =>
    have hcalls := ChunkWriter.calls_create_within key.dataKey chunkSize p.store
    rw [hcreate] at hcalls
    have hnew : ∀ w ∈ result.toOption.toList, w.base = key.dataKey := by
      cases result with
      | error error => exact fun _ hmem => absurd hmem List.not_mem_nil
      | ok new =>
        obtain ⟨⟨replaced, hwriter⟩, -⟩ := ChunkWriter.eq_of_create_ok hcreate
        simp [Except.toOption, hwriter]
    exact ⟨hcalls, forall_update hplaced.writers
      (List.forall_mem_append.2 ⟨hnew, hplaced.writers key⟩), hplaced.readers⟩
  | @ask call before after w hwriters =>
    have hbases := hplaced.writers key
    rw [hwriters, List.forall_mem_append, List.forall_mem_cons] at hbases
    obtain ⟨hbefore, hw, hafter⟩ := hbases
    have hcalls := call.calls_perform_within w p.store
    rw [hw] at hcalls
    refine ⟨hcalls, forall_update hplaced.writers ?_, hplaced.readers⟩
    rw [List.forall_mem_append, List.forall_mem_cons]
    exact ⟨hbefore, (call.base_perform w p.store).trans hw, hafter⟩
  | @drop before after w hwriters =>
    have hbases := hplaced.writers key
    rw [hwriters, List.forall_mem_append, List.forall_mem_cons] at hbases
    obtain ⟨hbefore, hw, hafter⟩ := hbases
    have hcalls := w.calls_drop p.store
    rw [hw] at hcalls
    exact ⟨hcalls, forall_update hplaced.writers
      (List.forall_mem_append.2 ⟨hbefore, hafter⟩), hplaced.readers⟩
  | @put v id config chunkSize source hstore hsource =>
    have hcalls := @Entry.calls_store id config chunkSize key source v
    rw [hstore] at hcalls
    refine ⟨hcalls.mono ?_, hplaced.writers, hplaced.readers⟩
    rintro call (hwithin | ⟨base, hbase, -⟩)
    · exact hwithin
    · rw [hsource] at hbase
      cases hbase
  | @view result s hcreate =>
    have hcalls := ChunkReader.looks_create key.dataKey p.store
    rw [hcreate] at hcalls
    have hnew : ∀ r ∈ result.toOption.toList, r.base = key.dataKey := by
      cases result with
      | error error => exact fun _ hmem => absurd hmem List.not_mem_nil
      | ok new => simp [Except.toOption, ChunkReader.base_of_create hcreate]
    exact ⟨hcalls.mono fun _ hlooks => hlooks.2, hplaced.writers, forall_update hplaced.readers
      (List.forall_mem_append.2 ⟨hnew, hplaced.readers key⟩)⟩
  | @read size before after r hreaders =>
    have hbases := hplaced.readers key
    rw [hreaders, List.forall_mem_append, List.forall_mem_cons] at hbases
    obtain ⟨hbefore, hr, hafter⟩ := hbases
    have hcalls := r.looks_read size p.store
    rw [hr] at hcalls
    refine ⟨hcalls.mono fun _ hlooks => hlooks.2, hplaced.writers,
      forall_update hplaced.readers ?_⟩
    rw [List.forall_mem_append, List.forall_mem_cons]
    exact ⟨hbefore, (ChunkReader.base_read r size p.store).trans hr, hafter⟩

/-- A run makes calls for the values of its content keys only. -/
theorem Runs.calls {Keys : ContentKey → Prop} (hruns : Runs Keys p q) (hplaced : p.Placed) :
    Calls (fun call => ∃ key, Keys key ∧ call.Within key.dataKey) p.store q.store ∧ q.Placed := by
  induction hruns with
  | refl => exact ⟨Calls.refl _, hplaced⟩
  | tail _ hlast ih =>
    obtain ⟨key, hkey, hstep⟩ := hlast
    obtain ⟨hcalls, hplaced'⟩ := hstep.calls ih.2
    exact ⟨ih.1.trans (hcalls.mono fun _ hwithin => ⟨key, hkey, hwithin⟩), hplaced'⟩

end Workplace

/-- Every key of a store belongs to one content key at most.  So after any run on a store,
operations under other content keys leave the keys of a value untouched; and storing any source at
all under another content key leaves them as they are, and looks them up only to read the source. -/
theorem Workplace.untouched_of_runs :
    (∀ (left right : ContentKey) (i j : UInt64),
      chunkKey left.dataKey i = chunkKey right.dataKey j → left = right ∧ i = j) ∧
    (∀ left right : ContentKey, left.dataKey = right.dataKey → left = right) ∧
    (∀ (left right : ContentKey) (j : UInt64), left.dataKey ≠ chunkKey right.dataKey j) ∧
    (∀ (s : ChunkStore) (p q : Workplace) (other : ContentKey) (name : String),
      Runs (fun _ => True) (start s) p → Runs (· ≠ other) p q → Occupies other.dataKey name →
        p.store.Untouched name q.store) ∧
    (∀ (id : StoreId) (config : StoreConfig) (chunkSize : ChunkSize) (key other : ContentKey)
        (source : Source) (v : Vault) (name : String),
      key ≠ other → Occupies other.dataKey name →
        let v' := ((Entry.mk (.chunked ⟨id, config⟩ chunkSize) key).store source v).2.2
        (v'.stores.get id).contents[name]? = (v.stores.get id).contents[name]? ∧
        ∀ event ∈ (v.stores.get id).eventsSince (v'.stores.get id), event.call.key = name →
          source.Looks id event.call) := by
  refine ⟨fun left right i j heq => ?_, fun left right heq => dataKey_injective heq,
    fun left right j => dataKey_ne_chunkKey left right.dataKey j,
    fun s p q other name hreached hruns hname => ?_,
    fun id config chunkSize key other source v name hne hname => ⟨?_, fun event hmem heq => ?_⟩⟩
  · obtain ⟨hbase, hindex⟩ := chunkKey_injective heq
    exact ⟨dataKey_injective hbase, hindex⟩
  · obtain ⟨-, hplaced⟩ := Runs.calls hreached (placed_start s)
    refine (Runs.calls hruns hplaced).1.untouched ?_
    rintro call ⟨key, hne, hwithin⟩
    exact hwithin.key_ne hne hname
  · refine (Entry.calls_store config chunkSize key source v).getElem?_eq ?_
    rintro call (hwithin | ⟨base, -, hlooks⟩) halters
    · exact hwithin.key_ne hne hname (Call.key_eq_of_alters halters)
    · exact hlooks.1.not_alters name halters
  · have hstoring := (Entry.calls_store config chunkSize key source v).of_mem_eventsSince hmem
    exact hstoring.resolve_left fun hwithin => hwithin.key_ne hne hname heq

/-- A store with a value whose content key is spelled like a chunk of another value. -/
def nestedStore : ChunkStore :=
  { contents := ((∅ : Contents).insert "k-data/0-data" [1]).insert "k-data/0-data/0" [2] }

/-- A value is written that would have its first chunk under that very content key, and the value
there is not touched. -/
theorem Workplace.untouched_of_runs_nestedStore :
    ∃ q, Runs (· ≠ ⟨"k-data/0"⟩) (start nestedStore) q ∧
      (q.writers ⟨"k"⟩).map ChunkWriter.state = [.finished] ∧
      nestedStore.Untouched "k-data/0-data/0" q.store := by
  have hother : ContentKey.mk "k" ≠ ⟨"k-data/0"⟩ := by decide
  let feed : WriterCall := .feed (.write [7, 8])
  obtain ⟨p₁, w, hbegin, hnew, hfinished⟩ : ∃ p₁ w, Step ⟨"k"⟩ (start nestedStore) p₁ ∧
      p₁.writers ⟨"k"⟩ = [w] ∧ (WriterCall.finish.perform (feed.perform w p₁.store).2.1
        (feed.perform w p₁.store).2.2).2.1.state = .finished :=
    ⟨_, _, .begin _ ⟨1, by decide⟩ rfl, rfl, rfl⟩
  obtain ⟨p₂, hwrite, hwritten, hstore⟩ : ∃ p₂, Step ⟨"k"⟩ p₁ p₂ ∧
      p₂.writers ⟨"k"⟩ = [(feed.perform w p₁.store).2.1] ∧
      p₂.store = (feed.perform w p₁.store).2.2 :=
    ⟨_, @Step.ask _ _ feed [] [] w hnew, writers_withWriters _ _ _ _, rfl⟩
  obtain ⟨q, hfinish, hlast⟩ : ∃ q, Step ⟨"k"⟩ p₂ q ∧
      (q.writers ⟨"k"⟩).map ChunkWriter.state = [.finished] := by
    refine ⟨_, @Step.ask _ _ .finish [] [] _ hwritten, ?_⟩
    rw [writers_withWriters, hstore]
    exact congrArg (fun state => [state]) hfinished
  have hruns : Runs (· ≠ ⟨"k-data/0"⟩) (start nestedStore) q :=
    .head ⟨_, hother, hbegin⟩ (.head ⟨_, hother, hwrite⟩ (.single ⟨_, hother, hfinish⟩))
  exact ⟨q, hruns, hlast, untouched_of_runs.2.2.2.1 nestedStore (start nestedStore) q
    ⟨"k-data/0"⟩ _ .refl hruns (.chunk _ 0)⟩

end ContentVault
