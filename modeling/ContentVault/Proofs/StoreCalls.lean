import ContentVault.ChunkStore
import ContentVault.Proofs.KeySeparation
import Mathlib.Logic.Relation

/-!
# Calls to a chunk store

Every operation on a chunk store is a sequence of calls.  What a sequence of calls
can do to a store is decided by the calls that may occur in it: a key that none of
them stores or removes keeps its value, and a key that none of them removes has a
value exactly if it had one or was stored on the way.
-/

namespace ContentVault

def Call.Alters (key : String) (call : Call) : Prop :=
  (∃ value, call = .store key value) ∨ call = .remove key

def Call.IsLoad (call : Call) : Prop :=
  ∃ key, call = .load key

/-- A call for one of the keys that a value under a base key occupies. -/
def Call.Within (base : String) (call : Call) : Prop :=
  Occupies base call.key

def Call.Looks (base : String) (call : Call) : Prop :=
  call.IsLoad ∧ call.Within base

theorem Call.IsLoad.not_alters {call : Call} (hload : call.IsLoad) (key : String) :
    ¬call.Alters key := by
  obtain ⟨key', rfl⟩ := hload
  rintro (⟨value, heq⟩ | heq) <;> cases heq

theorem Call.key_eq_of_alters {call : Call} {key : String} (halters : call.Alters key) :
    call.key = key := by
  rcases halters with ⟨value, rfl⟩ | rfl <;> rfl

theorem Call.getElem?_apply {call : Call} {key : String} (hkeeps : ¬call.Alters key)
    (contents : Contents) : (call.apply contents)[key]? = contents[key]? := by
  cases call with
  | load key' => rfl
  | store key' value =>
    have hne : key' ≠ key := fun heq => hkeeps (.inl ⟨value, by rw [heq]⟩)
    simp [Call.apply, Std.ExtTreeMap.getElem?_insert, hne]
  | remove key' =>
    have hne : key' ≠ key := fun heq => hkeeps (.inr (by rw [heq]))
    simp [Call.apply, Std.ExtTreeMap.getElem?_erase, hne]

namespace ChunkStore

def after (call : Call) (s : ChunkStore) : ChunkStore :=
  (s.request call).2

/-- Why a call would be refused now. -/
def refusal? (call : Call) (s : ChunkStore) : Option StorageError :=
  s.plan s.tally call

def HasStored (key : String) (s : ChunkStore) : Prop :=
  ∃ value, ⟨.store key value, true⟩ ∈ s.history

section Calls

variable (call : Call) (key : String) (value : Bytes) (s : ChunkStore)

theorem load_eq : s.load key = (match s.refusal? (.load key) with
    | some error => .error error
    | none => .ok s.contents[key]?, s.after (.load key)) := by
  rw [load, after, refusal?, request]
  cases s.plan s.tally (.load key) <;> rfl

theorem store_eq : s.store key value = (match s.refusal? (.store key value) with
    | some error => .error error
    | none => .ok (), s.after (.store key value)) := by
  rw [store, after, refusal?, request]
  cases s.plan s.tally (.store key value) <;> rfl

theorem remove_eq : s.remove key = (match s.refusal? (.remove key) with
    | some error => .error error
    | none => .ok (s.contents.contains key), s.after (.remove key)) := by
  rw [remove, after, refusal?, request]
  cases s.plan s.tally (.remove key) <;> rfl

theorem contents_after_of_refused {error : StorageError} (hrefused : s.refusal? call = some error) :
    (s.after call).contents = s.contents := by
  rw [refusal?] at hrefused
  simp [after, request, hrefused]

theorem contents_after_of_served (hserved : s.refusal? call = none) :
    (s.after call).contents = call.apply s.contents := by
  rw [refusal?] at hserved
  simp [after, request, hserved]

theorem contents_after_cases : (s.after call).contents = s.contents ∨
    (s.after call).contents = call.apply s.contents := by
  cases hrefusal : s.refusal? call with
  | some error => exact .inl (contents_after_of_refused call s hrefusal)
  | none => exact .inr (contents_after_of_served call s hrefusal)

@[simp]
theorem contents_after_load : (s.after (.load key)).contents = s.contents := by
  rcases contents_after_cases (.load key) s with heq | heq <;> exact heq

theorem history_after :
    (s.after call).history = ⟨call, (s.refusal? call).isNone⟩ :: s.history := rfl

theorem hasStored_after : (s.after call).HasStored key ↔
    s.HasStored key ∨ (s.refusal? call = none ∧ ∃ value, call = .store key value) := by
  simp only [HasStored, history_after, List.mem_cons, Event.mk.injEq]
  constructor
  · rintro ⟨value, ⟨rfl, hserved⟩ | hmem⟩
    · exact .inr ⟨Option.isNone_iff_eq_none.1 hserved.symm, value, rfl⟩
    · exact .inl ⟨value, hmem⟩
  · rintro (⟨value, hmem⟩ | ⟨hserved, value, rfl⟩)
    · exact ⟨value, .inr hmem⟩
    · exact ⟨value, .inl ⟨rfl, by rw [hserved, Option.isNone_none]⟩⟩

end Calls

/-- Looking up the manifest is one call; it fails where that is refused, or for what it
finds. -/
theorem loadManifest_cases (base : String) (s : ChunkStore) :
    (∃ error, s.refusal? (.load base) = some error ∧
      s.loadManifest base = (.error error, s.after (.load base))) ∨
    (∃ fault, s.loadManifest base = (.error (.manifest fault), s.after (.load base))) ∨
    (∃ found, s.loadManifest base = (.ok found, s.after (.load base))) := by
  rw [loadManifest, load_eq]
  cases s.refusal? (.load base) with
  | some error => exact .inl ⟨error, rfl, rfl⟩
  | none =>
    cases s.contents[base]? with
    | none => exact .inr (.inr ⟨none, rfl⟩)
    | some bytes =>
      cases hdecode : Manifest.decode bytes with
      | error fault => exact .inr (.inl ⟨fault, by simp only [hdecode]⟩)
      | ok manifest => exact .inr (.inr ⟨some manifest, by simp only [hdecode]⟩)

theorem loadManifest_snd (s : ChunkStore) (base : String) :
    (s.loadManifest base).2 = s.after (.load base) := by
  rcases loadManifest_cases base s with ⟨error, -, hload⟩ | ⟨fault, hload⟩ | ⟨found, hload⟩ <;>
    rw [hload]

/-- A manifest is found if the call is served and the bytes under the key can be decoded. -/
theorem loadManifest_of_decode {s : ChunkStore} {base : String} {bytes : Bytes}
    {manifest : Manifest} (hserved : s.refusal? (.load base) = none)
    (hbytes : s.contents[base]? = some bytes) (hdecode : Manifest.decode bytes = .ok manifest) :
    s.loadManifest base = (.ok (some manifest), s.after (.load base)) := by
  simp only [loadManifest, load_eq, hserved, hbytes, hdecode]

/-- Some calls, each of an allowed kind, lead from one state of a store to another. -/
def Calls (Allowed : Call → Prop) : ChunkStore → ChunkStore → Prop :=
  Relation.ReflTransGen fun s t => ∃ call, Allowed call ∧ t = s.after call

namespace Calls

variable {Allowed Wider : Call → Prop} {s t u : ChunkStore} {key : String}

theorem refl (s : ChunkStore) : Calls Allowed s s := Relation.ReflTransGen.refl

theorem trans (hst : Calls Allowed s t) (htu : Calls Allowed t u) : Calls Allowed s u :=
  Relation.ReflTransGen.trans hst htu

theorem single {call : Call} (hcall : Allowed call) : Calls Allowed s (s.after call) :=
  Relation.ReflTransGen.single ⟨call, hcall, rfl⟩

theorem mono (hwider : ∀ call, Allowed call → Wider call) (hcalls : Calls Allowed s t) :
    Calls Wider s t :=
  Relation.ReflTransGen.mono (fun _ _ ⟨call, hcall, heq⟩ => ⟨call, hwider call hcall, heq⟩)
    _ _ hcalls

/-- What every allowed call preserves, all of them together preserve. -/
theorem preserves (Holds : ChunkStore → Prop)
    (hstep : ∀ s call, Allowed call → Holds s → Holds (s.after call))
    (hcalls : Calls Allowed s t) (hs : Holds s) : Holds t := by
  induction hcalls with
  | refl => exact hs
  | tail _ hlast ih =>
    obtain ⟨call, hcall, rfl⟩ := hlast
    exact hstep _ call hcall ih

/-- The history tells of the calls that were made in between. -/
theorem exists_history (hcalls : Calls Allowed s t) :
    ∃ events, t.history = events ++ s.history ∧ ∀ event ∈ events, Allowed event.call := by
  apply hcalls.preserves fun u =>
    ∃ events, u.history = events ++ s.history ∧ ∀ event ∈ events, Allowed event.call
  · intro u call hcall ⟨events, hhistory, hallowed⟩
    refine ⟨⟨call, (u.refusal? call).isNone⟩ :: events, ?_, ?_⟩
    · rw [List.cons_append, ← hhistory]
      rfl
    · exact List.forall_mem_cons.2 ⟨hcall, hallowed⟩
  · exact ⟨[], rfl, fun _ hmem => absurd hmem List.not_mem_nil⟩

theorem plan_eq (hcalls : Calls Allowed s t) : t.plan = s.plan :=
  hcalls.preserves (fun u => u.plan = s.plan) (fun _ _ _ hu => hu) rfl

/-- A key that no allowed call stores or removes keeps its value. -/
theorem getElem?_eq (hkeeps : ∀ call, Allowed call → ¬call.Alters key)
    (hcalls : Calls Allowed s t) : t.contents[key]? = s.contents[key]? := by
  refine hcalls.preserves (fun u => u.contents[key]? = s.contents[key]?) ?_ rfl
  intro u call hcall hu
  rcases contents_after_cases call u with heq | heq
  · rw [heq, hu]
  · rw [heq, Call.getElem?_apply (hkeeps call hcall), hu]

theorem hasStored_iff (hkeeps : ∀ call, Allowed call → ¬call.Alters key)
    (hcalls : Calls Allowed s t) : t.HasStored key ↔ s.HasStored key := by
  refine hcalls.preserves (fun u => u.HasStored key ↔ s.HasStored key) ?_ Iff.rfl
  intro u call hcall hu
  rw [hasStored_after, hu, or_iff_left_iff_imp]
  rintro ⟨-, value, rfl⟩
  exact absurd (.inl ⟨value, rfl⟩) (hkeeps _ hcall)

theorem contents_eq_of_isLoad (hcalls : Calls Call.IsLoad s t) : t.contents = s.contents := by
  refine hcalls.preserves (fun u => u.contents = s.contents) ?_ rfl
  rintro u _ ⟨key, rfl⟩ hu
  rw [contents_after_load, hu]

end Calls

section AllServed

variable {s t u : ChunkStore} {call : Call}

/-- Every call that was made between two states of a store was served. -/
def AllServed (s t : ChunkStore) : Prop :=
  ∃ events, t.history = events ++ s.history ∧ ∀ event ∈ events, event.served = true

theorem AllServed.refl (s : ChunkStore) : s.AllServed s :=
  ⟨[], rfl, fun _ hmem => absurd hmem List.not_mem_nil⟩

theorem AllServed.trans (hst : s.AllServed t) (htu : t.AllServed u) : s.AllServed u := by
  obtain ⟨events, hevents, hserved⟩ := hst
  obtain ⟨later, hlater, hserved'⟩ := htu
  refine ⟨later ++ events, ?_, fun event hmem => ?_⟩
  · rw [hlater, hevents, List.append_assoc]
  · exact (List.mem_append.1 hmem).elim (hserved' event) (hserved event)

theorem allServed_after (hserved : s.refusal? call = none) : s.AllServed (s.after call) := by
  refine ⟨[⟨call, (s.refusal? call).isNone⟩], rfl, fun event hmem => ?_⟩
  rw [List.mem_singleton.1 hmem, hserved]
  rfl

end AllServed

def ServesLoads (s : ChunkStore) : Prop :=
  ∀ tally key, s.plan tally (.load key) = none

def ServesAll (s : ChunkStore) : Prop :=
  ∀ tally call, s.plan tally call = none

theorem ServesLoads.load {s : ChunkStore} (hloads : s.ServesLoads) (key : String) :
    s.load key = (.ok s.contents[key]?, s.after (.load key)) := by
  have hserved : s.refusal? (.load key) = none := hloads s.tally key
  rw [load_eq, hserved]

theorem ServesLoads.after {s : ChunkStore} (hloads : s.ServesLoads) (call : Call) :
    (s.after call).ServesLoads :=
  hloads

theorem ServesAll.servesLoads {s : ChunkStore} (hserves : s.ServesAll) : s.ServesLoads :=
  fun tally key => hserves tally (.load key)

theorem ServesAll.refusal?_eq {s : ChunkStore} (hserves : s.ServesAll) (call : Call) :
    s.refusal? call = none :=
  hserves s.tally call

/-- No call changes what the store refuses. -/
theorem ServesAll.of_calls {Allowed : Call → Prop} {s t : ChunkStore} (hserves : s.ServesAll)
    (hcalls : Calls Allowed s t) : t.ServesAll := by
  rw [ServesAll, hcalls.plan_eq]
  exact hserves

/-- The key has a value exactly if a served call has stored one. -/
def Tells (key : String) (s : ChunkStore) : Prop :=
  s.contents[key]?.isSome ↔ s.HasStored key

/-- A key that no allowed call removes goes on to tell whether it was stored. -/
theorem Calls.tells {Allowed : Call → Prop} {s t : ChunkStore} {key : String}
    (hkeeps : ∀ call, Allowed call → call ≠ .remove key) (hcalls : Calls Allowed s t)
    (hs : s.Tells key) : t.Tells key := by
  refine hcalls.preserves (Tells key) ?_ hs
  intro u call hcall hu
  by_cases halters : call.Alters key
  · obtain ⟨value, rfl⟩ := halters.resolve_right (hkeeps call hcall)
    rw [Tells, hasStored_after]
    cases hrefusal : u.refusal? (.store key value) with
    | some error =>
      rw [contents_after_of_refused _ _ hrefusal]
      refine hu.trans ⟨.inl, fun hstored => hstored.resolve_right ?_⟩
      rintro ⟨hserved, -⟩
      cases hserved
    | none =>
      rw [contents_after_of_served _ _ hrefusal]
      simp [Call.apply]
  · have hsingle : Calls (fun c => c = call) u (u.after call) := Calls.single rfl
    have hkept : ∀ c, c = call → ¬c.Alters key := by
      rintro _ rfl
      exact halters
    rw [Tells, hsingle.getElem?_eq hkept, hsingle.hasStored_iff hkept]
    exact hu

end ChunkStore

end ContentVault
