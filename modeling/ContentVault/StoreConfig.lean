import Std.Data.ExtTreeMap

/-!
# Configuration of a chunk store

The name of the loader behind a store, where it lives, and named properties.
Properties are kept in ascending order of their names; the last value given to
a name stands.
-/

namespace ContentVault

/-- Named properties, in ascending order of the names by code point, which is
the order of their UTF-8 bytes. -/
abbrev Properties := Std.ExtTreeMap String String

structure StoreConfig where
  loader : String
  location : Option String
  properties : Properties
  deriving DecidableEq

namespace StoreConfig

/-- A loader without a location or properties. -/
def ofLoader (loader : String) : StoreConfig :=
  ⟨loader, none, ∅⟩

def withLocation (config : StoreConfig) (location : String) : StoreConfig :=
  { config with location := some location }

def withProperty (config : StoreConfig) (name value : String) : StoreConfig :=
  { config with properties := config.properties.insert name value }

def withProperties (config : StoreConfig) (properties : Properties) : StoreConfig :=
  properties.toList.foldl (fun config pair => config.withProperty pair.1 pair.2) config

def property? (config : StoreConfig) (name : String) : Option String :=
  config.properties[name]?

def render (config : StoreConfig) : String :=
  let properties := config.properties.toList.map fun pair => s!"{pair.1}={pair.2}"
  config.loader ++ "\x7b" ++ String.intercalate "," properties ++ "\x7d"

/-- What tells the store from others: its property `id`, else its location, else
the whole configuration. -/
def identification (config : StoreConfig) : String :=
  match config.property? "id", config.location with
  | some id, _ => id
  | none, some location => location
  | none, none => config.render

end StoreConfig

end ContentVault
