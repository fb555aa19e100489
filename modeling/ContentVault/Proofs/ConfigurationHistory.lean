import ContentVault.Entry
import ContentVault.Proofs.TextBytes
import Mathlib.Data.List.Induction

/-!
# Configurations by their history

A configuration is built call by call.  What it says can be told from the calls: each name has the
value that was given to it last, whether it stood alone or among many, and so has the location.
Nothing else about the calls is kept.
-/

namespace ContentVault

/-- Of all names that are given values at once, each gets its own. -/
theorem Properties.getElem?_insertMany (properties given : Properties) (name : String) :
    (properties.insertMany given.toList)[name]? = given[name]?.or properties[name]? := by
  cases hvalue : given[name]? with
  | some value =>
    exact Std.ExtTreeMap.getElem?_insertMany_list_of_mem Std.ReflCmp.compare_self
      Std.ExtTreeMap.distinct_keys_toList (Std.ExtTreeMap.mem_toList_iff_getElem?_eq_some.2 hvalue)
  | none =>
    have habsent : (given.toList.map Prod.fst).contains name = false := by
      rw [Std.ExtTreeMap.map_fst_toList_eq_keys, Std.ExtTreeMap.contains_keys,
        Std.ExtTreeMap.contains_eq_isSome_getElem?, hvalue, Option.isSome_none]
    exact Std.ExtTreeMap.getElem?_insertMany_list_of_contains_eq_false habsent

namespace StoreConfig

/-! ### Calls -/

inductive Update where
  | locate (location : String)
  | assign (name value : String)
  | assignAll (properties : Properties)

namespace Update

def apply : Update → StoreConfig → StoreConfig
  | .locate location, config => config.withLocation location
  | .assign name value, config => config.withProperty name value
  | .assignAll properties, config => config.withProperties properties

def value? (name : String) : Update → Option String
  | .locate _ => none
  | .assign assigned value => if assigned = name then some value else none
  | .assignAll properties => properties[name]?

def location? : Update → Option String
  | .locate location => some location
  | .assign _ _ => none
  | .assignAll _ => none

/-- Two calls do not give values to the same name, nor locations both. -/
structure Apart (first second : Update) : Prop where
  values : ∀ name, first.value? name = none ∨ second.value? name = none
  locations : first.location? = none ∨ second.location? = none

end Update

def last? (says? : Update → Option String) (updates : List Update) : Option String :=
  updates.reverse.findSome? says?

def lastValue? (updates : List Update) (name : String) : Option String :=
  last? (Update.value? name) updates

def lastLocation? (updates : List Update) : Option String :=
  last? Update.location? updates

/-- What becomes of a loader by calls in order. -/
def ofHistory (loader : String) (updates : List Update) : StoreConfig :=
  updates.foldl (fun config update => update.apply config) (ofLoader loader)

/-! ### What one call does -/

theorem withProperties_eq (config : StoreConfig) (properties : Properties) :
    config.withProperties properties =
      { config with properties := config.properties.insertMany properties.toList } := by
  rw [withProperties]
  generalize properties.toList = pairs
  induction pairs generalizing config with
  | nil => rw [Std.ExtTreeMap.insertMany_nil, List.foldl_nil]
  | cons pair pairs ih => rw [List.foldl_cons, ih, Std.ExtTreeMap.insertMany_cons, withProperty]

namespace Update

variable (update : Update) (config : StoreConfig)

/-- A call gives its names their values and leaves the others as they are. -/
theorem property?_apply (name : String) :
    (update.apply config).property? name = (update.value? name).or (config.property? name) := by
  cases update with
  | locate location => rfl
  | assign assigned value =>
    by_cases heq : assigned = name <;>
      simp [apply, value?, property?, withProperty, Std.ExtTreeMap.getElem?_insert, heq]
  | assignAll properties =>
    rw [apply, withProperties_eq]
    exact Properties.getElem?_insertMany config.properties properties name

theorem location_apply :
    (update.apply config).location = update.location?.or config.location := by
  cases update with
  | locate location => rfl
  | assign name value => rfl
  | assignAll properties =>
    rw [apply, withProperties_eq]
    rfl

theorem loader_apply : (update.apply config).loader = config.loader := by
  cases update with
  | locate location => rfl
  | assign name value => rfl
  | assignAll properties => rw [apply, withProperties_eq]

end Update

/-! ### What many calls do -/

section History

variable (says? : Update → Option String) (loader : String) (updates : List Update)

@[simp]
theorem last?_singleton (update : Update) : last? says? [update] = says? update := by
  simp [last?]

theorem last?_append (earlier later : List Update) :
    last? says? (earlier ++ later) = (last? says? later).or (last? says? earlier) := by
  rw [last?, List.reverse_append, List.findSome?_append]
  rfl

/-- Two calls in a row of which only one says something can be made in either order. -/
theorem last?_swap {first second : Update} (happart : says? first = none ∨ says? second = none)
    (before after : List Update) :
    last? says? (before ++ first :: second :: after) =
      last? says? (before ++ second :: first :: after) := by
  have hpair (first second : Update) : last? says? (before ++ first :: second :: after) =
      (last? says? after).or (((says? second).or (says? first)).or (last? says? before)) := by
    rw [← List.singleton_append, ← @List.singleton_append _ second after]
    simp only [last?_append, last?_singleton, Option.or_assoc]
  rw [hpair, hpair]
  rcases happart with hnone | hnone <;> rw [hnone, Option.or_none, Option.none_or]

theorem ofHistory_append_singleton (update : Update) :
    ofHistory loader (updates ++ [update]) = update.apply (ofHistory loader updates) := by
  rw [ofHistory, List.foldl_append]
  rfl

theorem property?_ofHistory (name : String) :
    (ofHistory loader updates).property? name = lastValue? updates name := by
  induction updates using List.reverseRecOn with
  | nil => rfl
  | append_singleton updates update ih =>
    rw [ofHistory_append_singleton, Update.property?_apply, ih, lastValue?, lastValue?,
      last?_append, last?_singleton]

theorem location_ofHistory : (ofHistory loader updates).location = lastLocation? updates := by
  induction updates using List.reverseRecOn with
  | nil => rfl
  | append_singleton updates update ih =>
    rw [ofHistory_append_singleton, Update.location_apply, ih, lastLocation?, lastLocation?,
      last?_append, last?_singleton]

theorem loader_ofHistory : (ofHistory loader updates).loader = loader := by
  induction updates using List.reverseRecOn with
  | nil => rfl
  | append_singleton updates update ih =>
    rw [ofHistory_append_singleton, Update.loader_apply, ih]

end History

/-! ### What a configuration says -/

/-- Configurations are equal that have the same loader and location and give every name the same
value. -/
theorem eq_of_property? {left right : StoreConfig} (hloader : left.loader = right.loader)
    (hlocation : left.location = right.location)
    (hproperty : ∀ name, left.property? name = right.property? name) : left = right := by
  cases left
  cases right
  cases hloader
  cases hlocation
  cases Std.ExtTreeMap.ext_getElem? fun name => hproperty name
  rfl

/-- A configuration, and the diagnostics made of it, give this loader, these values of names and
this location. -/
structure Tells (config : StoreConfig) (loader : String) (value? : String → Option String)
    (location? : Option String) : Prop where
  names : config.loader = loader
  values : ∀ name, config.property? name = value? name
  locates : config.location = location?
  /-- Every name that has a value stands once, in ascending order of the UTF-8 bytes. -/
  renders : ∃ pairs : List (String × String),
    config.render = loader ++ "\x7b" ++
      String.intercalate "," (pairs.map fun pair => pair.1 ++ "=" ++ pair.2) ++ "\x7d" ∧
    (pairs.Pairwise fun left right => Bytes.ofText left.1 < Bytes.ofText right.1) ∧
    ∀ name value, (name, value) ∈ pairs ↔ value? name = some value
  /-- What tells the store from others is the value of `id`, else the location, else all of it. -/
  places : ∀ (id : StoreId) (chunkSize : ChunkSize) (key : ContentKey),
    (Entry.mk (.chunked ⟨id, config⟩ chunkSize) key).location =
      Backend.chunkedName ++ ":" ++ loader ++ ":" ++
        ((value? "id").or location?).getD config.render

/-- Opening a database gives its configuration the location of the file. -/
theorem config_of_openDatabase {v v' : Vault} {path : String} {config : StoreConfig}
    {store : StoreHandle} (hopen : v.openDatabase path config = (.ok store, v')) :
    store.config = config.withLocation path := by
  rw [Vault.openDatabase] at hopen
  split at hopen
  · cases hopen
  · split at hopen <;> cases hopen
    rfl

theorem tells (config : StoreConfig) :
    config.Tells config.loader config.property? config.location where
  names := rfl
  values _ := rfl
  locates := rfl
  renders := by
    refine ⟨config.properties.toList, rfl, ?_, fun name value =>
      Std.ExtTreeMap.mem_toList_iff_getElem?_eq_some⟩
    exact Std.ExtTreeMap.ordered_keys_toList.imp Bytes.ofText_lt_iff_compare.2
  places id chunkSize key := by
    have hidentification : config.identification =
        ((config.property? "id").or config.location).getD config.render := by
      cases hvalue : config.property? "id" <;> cases hlocation : config.location <;>
        simp [identification, hvalue, hlocation]
    rw [← hidentification]
    rfl

theorem tells_history (loader : String) (updates : List Update) :
    (ofHistory loader updates).Tells loader (lastValue? updates) (lastLocation? updates) := by
  have htells := (ofHistory loader updates).tells
  rw [loader_ofHistory, location_ofHistory, funext (property?_ofHistory loader updates)] at htells
  exact htells

/-- However a configuration was built, it tells the values and the location that were given last;
two calls in a row for different names can be made in either order; and once a database was opened
with it, it tells the path of the database in place of any location. -/
theorem tells_ofHistory (loader : String) (updates : List Update) :
    (ofHistory loader updates).Tells loader (lastValue? updates) (lastLocation? updates) ∧
    (∀ (before after : List Update) (first second : Update),
      updates = before ++ first :: second :: after → first.Apart second →
        ofHistory loader updates = ofHistory loader (before ++ second :: first :: after)) ∧
    (∀ (v v' : Vault) (path : String) (store : StoreHandle),
      v.openDatabase path (ofHistory loader updates) = (.ok store, v') →
        store.config.Tells loader (lastValue? updates) (some path)) := by
  refine ⟨tells_history loader updates, ?_, fun v v' path store hopen => ?_⟩
  · rintro before after first second rfl happart
    refine eq_of_property? ?_ ?_ fun name => ?_
    · rw [loader_ofHistory, loader_ofHistory]
    · rw [location_ofHistory, location_ofHistory]
      exact last?_swap _ happart.locations before after
    · rw [property?_ofHistory, property?_ofHistory]
      exact last?_swap _ (happart.values name) before after
  · have hconfig : store.config = ofHistory loader (updates ++ [.locate path]) := by
      rw [ofHistory_append_singleton]
      exact config_of_openDatabase hopen
    have htells := tells_history loader (updates ++ [.locate path])
    rw [← hconfig, lastLocation?, last?_append, last?_singleton] at htells
    have hvalues : lastValue? (updates ++ [.locate path]) = lastValue? updates := by
      funext name
      rw [lastValue?, last?_append, last?_singleton]
      rfl
    rw [hvalues] at htells
    exact htells

/-- A database is opened with a configuration that was located elsewhere, and whose name `id` was
given two values. -/
theorem tells_ofHistory_movedDatabase :
    let updates : List Update := [.assign "id" "a", .locate "elsewhere", .assign "id" ""]
    ∃ store v', (Vault.ofTree .empty).openDatabase "db" (ofHistory "engine" updates) =
        (.ok store, v') ∧
      store.config.Tells "engine" (lastValue? updates) (some "db") ∧
      lastValue? updates "id" = some "" ∧
      ofHistory "engine" updates =
        ofHistory "engine" [.locate "elsewhere", .assign "id" "a", .assign "id" ""] := by
  intro updates
  obtain ⟨store, v', hopen⟩ : ∃ store v', (Vault.ofTree .empty).openDatabase "db"
      (ofHistory "engine" updates) = (.ok store, v') := ⟨_, _, rfl⟩
  obtain ⟨-, hswap, hopened⟩ := tells_ofHistory "engine" updates
  exact ⟨store, v', hopen, hopened _ _ _ _ hopen, rfl,
    hswap [] [.assign "id" ""] _ _ rfl ⟨fun _ => .inr rfl, .inl rfl⟩⟩

end StoreConfig

end ContentVault
