import ContentVault.Command
import ContentVault.Config.Open
import ContentVault.Fixity

/-!
# The program

Commands are carried out against a file tree, one at a time.  Files and databases
outlive a command; chunks in memory are gone when it is done.
-/

namespace ContentVault

open Digest (Digester)

inductive CommandError where
  | config (error : ConfigError)
  | vault (error : VaultError)
  | unsupportedAlgorithm (name : String)
  | io (error : IoError)

def CommandError.message : CommandError → String
  | .config error => error.message
  | .vault error => error.message
  | .unsupportedAlgorithm name => s!"unsupported digest algorithm `{name}`"
  | .io error => "I/O error: " ++ error.message

/-- What a command that was carried out prints, and whether the value was as
expected. -/
structure Report where
  line : String
  success : Bool
  deriving DecidableEq, Repr

namespace Command

/-- Stores a file that was read through a tracker before.  The digest becomes the key. -/
def storeTracked (config : Config) (file : String) (tracker : Tracker) (v : Vault) :
    Except (Failure CommandError) Report × Vault :=
  match config.openBackend v with
  | (.error error, v) => (.error (.reported (.config error)), v)
  | (.ok backend, v) =>
    match Source.ofFile v.tree file with
    | .error failure => (.error (.reported (.io (.file failure))), v)
    | .ok source =>
      match (Entry.mk backend ⟨Hex.encode tracker.digest⟩).store source v with
      | (.error .panicked, _, v) => (.error .panicked, v)
      | (.error (.reported error), _, v) => (.error (.reported (.vault error)), v)
      | (.ok key, _, v) =>
        let fields := [key.text, tracker.uri.render, toString tracker.count.toNat,
          backend.location]
        (.ok ⟨String.intercalate "\t" fields, true⟩, v)

/-- Stores a file.  It is read once for its digest and once more to be stored. -/
def storeFile (config : Config) (file : String) (v : Vault) :
    Except (Failure CommandError) Report × Vault :=
  match Source.ofFile v.tree file with
  | .error failure => (.error (.reported (.io (.file failure))), v)
  | .ok source =>
    let (drained, tracker) :=
      source.drainTracked (.start (Digester.start .sha1)) digestSize v.stores
    match drained.failure with
    | some error => (.error (.reported (.io error)), v)
    | none => storeTracked config file tracker v

def checkValue (config : Config) (key : ContentKey) (digest : DigestUri) (size : UInt64)
    (v : Vault) : Except CommandError Report × Vault :=
  match Digester.ofSpelling? digest.algorithm with
  | none => (.error (.unsupportedAlgorithm digest.algorithm), v)
  | some digester =>
    match config.openBackend v with
    | (.error error, v) => (.error (.config error), v)
    | (.ok backend, v) =>
      match (Entry.mk backend key).checkFixity digest size digester v with
      | (.error error, v) => (.error (.vault error), v)
      | (.ok result, v) => (.ok ⟨result.render, result.isSuccess⟩, v)

/-- The paths that carrying out a command may follow, as far as the tree tells. -/
def paths (command : Command) (tree : FileTree) : List String :=
  let backend : List String := match Config.load command.config tree with
    | .error _ => []
    | .ok config =>
      match config.backend with
      | .chunked .memory _ _ => []
      | .chunked (.database path) _ _ => [path]
      | .direct root =>
        let key? := match command.action with
          | .check key _ _ => some key
          | .store file =>
            match tree.openFile file with
            | .ok (some content) => some (BlobStore.keyOf content)
            | _ => none
        root :: (key?.bind (BlobStore.mk root).path?).toList
  match command.action with
  | .store file => command.config :: file :: backend
  | .check _ _ _ => command.config :: backend

def perform (command : Command) (v : Vault) : Except (Failure CommandError) Report × Vault :=
  match Config.load command.config v.tree with
  | .error error => (.error (.reported (.config error)), v)
  | .ok config =>
    match command.action with
    | .store file => storeFile config file v
    | .check key digest size =>
      let (result, v) := checkValue config key digest size v
      (result.mapError .reported, v)

end Command

/-- How a run of the program ends: an exit code, what is printed, and the message of
the error if there is one. -/
structure Outcome where
  exit : Nat
  output : String
  message : Option String
  deriving DecidableEq, Repr

namespace Outcome

/-- The arguments are no command. -/
def usage : Outcome := ⟨2, "", none⟩

/-- The end of a command: 0, 1 if it failed, 3 if the value was not as expected, or 101 if it
panicked. -/
def ofResult : Except (Failure CommandError) Report → Outcome
  | .error (.reported error) => ⟨1, "", some error.message⟩
  | .error .panicked => ⟨101, "", none⟩
  | .ok report => ⟨if report.success then 0 else 3, report.line ++ "\n", none⟩

end Outcome

def runProgram (arguments : List String) (tree : FileTree) : Outcome × FileTree :=
  match Command.parse? arguments with
  | none => (.usage, tree)
  | some command =>
    let (result, v) := command.perform (.ofTree tree)
    (.ofResult result, v.closeAll.tree)

end ContentVault
