import ContentVault.Program

/-!
# The program in its surroundings

Takes in what a command may look at in the file system, runs the command, and
brings the changes back.
-/

namespace ContentVault

def hostPath (place : Place) : String :=
  "/" ++ String.intercalate "/" place

def readNode (place : Place) : IO (Option Node) := do
  let path := (← IO.currentDir) / hostPath place
  if ← path.isDir then return some .directory
  if !(← path.pathExists) then return none
  let content := (← IO.FS.readBinFile path).data.toList
  return some (match DatabaseFile.decode? content with
    | some contents => .database contents
    | none => .file content)

def takeNames : List String → Place → FileTree → IO FileTree
  | [], _, tree => return tree
  | name :: names, place, tree => do
    match FileTree.step place name with
    | .error _ => return tree
    | .ok next =>
      match ← readNode next with
      | none => return tree
      | some node => takeNames names next (tree.put next node)

def takePath (tree : FileTree) (text : String) : IO FileTree :=
  match Path.parse text with
  | .error _ => return tree
  | .ok path => takeNames path.names (if path.isAbsolute then [] else tree.here) tree

def currentTree : IO FileTree := do
  let here := (← IO.currentDir).components.filter fun name => name != "" && name != "/"
  takeNames here [] ⟨∅, here⟩

/-- A path beside the given one at which nothing stands. -/
partial def freePath (path : String) : IO String := do
  let candidate := path ++ "~"
  if ← ((← IO.currentDir) / candidate).pathExists then freePath candidate else return candidate

/-- Brings a node to its place.  A file takes its place once it is complete. -/
def writeNode (place : Place) (node : Node) : IO Unit := do
  let path := hostPath place
  match node.content? with
  | none => IO.FS.createDirAll path
  | some content =>
    let temporary ← freePath path
    IO.FS.writeBinFile temporary ⟨content.toArray⟩
    IO.FS.rename temporary path

def runCommand (arguments : List String) : IO Outcome := do
  let mut tree ← currentTree
  if let some command := Command.parse? arguments then
    -- the configuration tells of further paths, and the file of one more
    for _ in [0:3] do
      for path in command.paths tree do
        tree ← takePath tree path
  let (outcome, after) := runProgram arguments tree
  for (place, node) in after.nodes.toList do
    if tree.nodes[place]? ≠ some node then
      writeNode place node
  return outcome

end ContentVault

open ContentVault

def main (arguments : List String) : IO UInt32 := do
  let outcome ← runCommand arguments
  IO.print outcome.output
  if outcome = .usage then
    IO.eprintln "usage: content-vault --config CONFIG_JSON (store FILE | check KEY DIGEST_URI SIZE)"
  if let some message := outcome.message then
    IO.eprintln message
  return UInt32.ofNat outcome.exit
