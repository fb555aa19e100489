import ContentVault.DatabaseFile
import ContentVault.Path
import Std.Data.ExtTreeMap

/-!
# File trees

A file tree holds files, databases and directories at their places, and answers
requests by path as a file system does: names are followed from directory to
directory, and a request that cannot be met is refused with the failure that is
met first.
-/

namespace ContentVault

/-- The names that lead from the root to a node. -/
abbrev Place := List String

inductive Node where
  | directory
  | file (content : Bytes)
  /-- A file that a chunk store keeps its values in. -/
  | database (contents : Contents)
  deriving DecidableEq, Repr

def Node.content? : Node → Option Bytes
  | .directory => none
  | .file content => some content
  | .database contents => some (DatabaseFile.encode contents)

/-- The nodes below the root, which is a directory, and the place from which
relative paths start. -/
structure FileTree where
  nodes : Std.ExtTreeMap Place Node
  here : Place

namespace FileTree

/-- A directory of its own to start from, with nothing in it.  It has no name that a
path can spell. -/
def empty : FileTree where
  nodes := (∅ : Std.ExtTreeMap Place Node).insert [""] .directory
  here := [""]

def node? (tree : FileTree) (place : Place) : Option Node :=
  if place = [] then some .directory else tree.nodes[place]?

/-- The place that a name leads to from a directory. -/
def step (place : Place) (name : String) : Except FileFailure Place :=
  if name = "." then .ok place
  else if name = ".." then .ok place.dropLast
  else if 255 < name.utf8ByteSize then .error .nameTooLong
  else .ok (place ++ [name])

def enter (tree : FileTree) (place : Place) (name : String) : Except FileFailure Place :=
  match step place name with
  | .error failure => .error failure
  | .ok next =>
    match tree.node? next with
    | none => .error .noSuchFile
    | some .directory => .ok next
    | some _ => .error .notADirectory

def start (tree : FileTree) (path : Path) : Place :=
  if path.isAbsolute then [] else tree.here

/-- The place that a path leads to; something may stand there or not. -/
def locate (tree : FileTree) (path : Path) : Except FileFailure Place :=
  match path.names.getLast? with
  | none => .ok (tree.start path)
  | some last =>
    match path.names.dropLast.foldlM tree.enter (tree.start path) with
    | .error failure => .error failure
    | .ok directory => step directory last

def find (tree : FileTree) (path : Path) : Except FileFailure Node :=
  match tree.locate path with
  | .error failure => .error failure
  | .ok place =>
    match tree.node? place with
    | none => .error .noSuchFile
    | some .directory => .ok .directory
    | some node => if path.endsInSlash then .error .notADirectory else .ok node

def nodeAt (tree : FileTree) (text : String) : Except FileFailure Node :=
  match Path.parse text with
  | .error failure => .error failure
  | .ok path => tree.find path

/-- Opens what stands at the end of the path that a text spells.  A directory can be
opened, too, but it has no content. -/
def openFile (tree : FileTree) (text : String) : Except FileFailure (Option Bytes) :=
  (tree.nodeAt text).map Node.content?

def hasPath (tree : FileTree) (text : String) : Bool :=
  match tree.nodeAt text with
  | .ok _ => true
  | .error _ => false

def put (tree : FileTree) (place : Place) (node : Node) : FileTree :=
  { tree with nodes := tree.nodes.insert place node }

def remove (tree : FileTree) (place : Place) : FileTree :=
  { tree with nodes := tree.nodes.erase place }

/-- Makes the directories that names lead to from a place, as far as they are missing.
The last name is exempt unless `makesLast`.  What is met instead of a directory is in
the way of a new one if it is met at the end or behind a new directory. -/
def makeAlong (makesLast : Bool) :
    Bool → List String → Place → FileTree → Except FileFailure Unit × FileTree
  | _, [], _, tree => (.ok (), tree)
  | made, name :: rest, place, tree =>
    match step place name with
    | .error failure => (.error failure, tree)
    | .ok next =>
      let makes := makesLast || !rest.isEmpty
      match tree.node? next with
      | some .directory => makeAlong makesLast made rest next tree
      | some _ =>
        let inTheWay := makes && (made || rest.isEmpty)
        (.error (if inTheWay then .fileExists else .notADirectory), tree)
      | none =>
        if makes then makeAlong makesLast true rest next (tree.put next .directory)
        else (.error .noSuchFile, tree)

/-- Makes a directory and those that lead to it.  A directory that stands already is as
good as a new one, but one whose path ends in a name that stays in place has to stand. -/
def makeDirectories (tree : FileTree) (text : String) : Except FileFailure Unit × FileTree :=
  if text = "" then (.ok (), tree)
  else
    match Path.parse text with
    | .error failure => (.error failure, tree)
    | .ok path =>
      makeAlong (path.names.getLast? ≠ some ".") false path.plainNames (tree.start path) tree

def placeForFile (tree : FileTree) (text : String) : Except FileFailure Place :=
  match Path.parse text with
  | .error failure => .error failure
  | .ok path =>
    match tree.locate path with
    | .error failure => .error failure
    | .ok place =>
      match tree.node? place with
      | some .directory => .error .isADirectory
      | some _ => if path.endsInSlash then .error .notADirectory else .ok place
      | none => if path.endsInSlash then .error .isADirectory else .ok place

def writeFile (tree : FileTree) (text : String) (content : Bytes) :
    Except FileFailure Unit × FileTree :=
  match Path.parse text with
  | .error failure => (.error failure, tree)
  | .ok path =>
    match makeAlong true false path.plainNames.dropLast (tree.start path) tree with
    | (.error failure, tree) => (.error failure, tree)
    | (.ok _, tree) =>
      match tree.placeForFile text with
      | .error failure => (.error failure, tree)
      | .ok place => (.ok (), tree.put place (.file content))

def makeTemporary (tree : FileTree) (directory : String) : Except FileFailure (Place × FileTree) :=
  match tree.nodeAt (if directory = "" then "." else directory) with
  | .error failure => .error failure
  | .ok .directory =>
    match Path.parse (if directory = "" then "." else directory) with
    | .error failure => .error failure
    | .ok path =>
      match tree.locate path with
      | .error failure => .error failure
      | .ok place =>
        let candidate (n : Nat) : Place := place ++ [".tmp" ++ toString n]
        let free? := (List.range (tree.nodes.size + 1)).find? fun n =>
          !tree.nodes.contains (candidate n)
        let new := candidate (free?.getD (tree.nodes.size + 1))
        .ok (new, tree.put new (.file []))
  | .ok _ => .error .notADirectory

/-- Gives a file the place at the end of a path. -/
def moveFile (tree : FileTree) (place : Place) (text : String) : Except FileFailure FileTree :=
  match tree.placeForFile text with
  | .error failure => .error failure
  | .ok target =>
    match tree.node? place with
    | some node => .ok ((tree.remove place).put target node)
    | none => .error .noSuchFile

def files (tree : FileTree) : List String :=
  let below := tree.nodes.toList.filterMap fun (place, node) =>
    match node with
    | .directory => none
    | _ =>
      if tree.here.isPrefixOf place then
        some (String.intercalate "/" (place.drop tree.here.length))
      else none
  below.mergeSort fun a b => a ≤ b

end FileTree

end ContentVault
