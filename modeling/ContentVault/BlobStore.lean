import ContentVault.Source

/-!
# Direct stores

A direct store keeps each value as one file.  The store chooses the key, the
SHA-1 digest of the value, and the key tells where the file is: two directories
fan the files out.  A value is collected in a temporary file, which takes its
place once it is complete.
-/

namespace ContentVault

open Digest (Digester)

structure BlobStore where
  root : String
  deriving DecidableEq, Repr

namespace BlobStore

def name : String := "FileBinaryStore"

def isKeyChar (c : Char) : Bool :=
  c.isAlphanum || c == '-' || c == '_'

/-- The names that lead from the root to the file of a key; there is no file for
a key that is not a plain name. -/
def names? (key : ContentKey) : Option (List String) :=
  let chars := key.text.toList
  if chars = [] ∨ ¬chars.all isKeyChar then none
  else if chars.length < 4 then some [key.text]
  else some [String.ofList (chars.take 2), String.ofList ((chars.drop 2).take 2), key.text]

def pathOf (store : BlobStore) (names : List String) : String :=
  names.foldl Path.join store.root

def path? (store : BlobStore) (key : ContentKey) : Option String :=
  (names? key).map store.pathOf

def describe (store : BlobStore) : String :=
  s!"{name}[{store.root}]"

/-- Opens a direct store, making its root if it is missing. -/
def create (root : String) (tree : FileTree) : Except StorageError BlobStore × FileTree :=
  match tree.makeDirectories root with
  | (.error failure, tree) => (.error (.io (.file failure)), tree)
  | (.ok _, tree) => (.ok ⟨root⟩, tree)

def openRead (store : BlobStore) (key : ContentKey) (tree : FileTree) :
    Except StorageError Source :=
  match store.path? key with
  | none => .error (.notFound key.text)
  | some path =>
    match Source.ofFile tree path with
    | .ok source => .ok source
    | .error .noSuchFile => .error (.notFound key.text)
    | .error failure => .error (.io (.file failure))

def keyOf (value : Bytes) : ContentKey :=
  ⟨Hex.encode (Digest.Algorithm.sha1.hash value)⟩

/-- Gives a complete temporary file its place, unless the value is there already. -/
def settle (store : BlobStore) (key : ContentKey) (temporary : Place) (tree : FileTree) :
    Except StorageError ContentKey × FileTree :=
  match names? key with
  | none => (.error (.notFound key.text), tree.remove temporary)
  | some names =>
    if tree.hasPath (store.pathOf names) then (.ok key, tree.remove temporary)
    else
      match tree.makeDirectories (store.pathOf names.dropLast) with
      | (.error failure, tree) => (.error (.io (.file failure)), tree.remove temporary)
      | (.ok _, tree) =>
        match tree.moveFile temporary (store.pathOf names) with
        | .error failure => (.error (.io (.file failure)), tree.remove temporary)
        | .ok tree => (.ok key, tree)

def copySize : Nat := 65536

/-- Stores everything that a source yields, and tells the key, for which a digester is fed with
what each read brings.  What is left of the source comes back, and nothing of a value that could
not be completed stays. -/
def put (store : BlobStore) (source : Source) (tree : FileTree) (stores : Stores) :
    Except StorageError ContentKey × Source × FileTree × Stores :=
  match tree.makeTemporary store.root with
  | .error failure => (.error (.io (.file failure)), source, tree, stores)
  | .ok (temporary, tree) =>
    let drained := source.drain copySize stores
    match drained.failure with
    | some error => (.error (.io error), drained.source, tree.remove temporary, drained.stores)
    | none =>
      let digester := drained.pieces.foldl Digester.update (Digester.start .sha1)
      let (result, tree) :=
        store.settle ⟨Hex.encode digester.finalize⟩ temporary
          (tree.put temporary (.file drained.bytes))
      (result, drained.source, tree, drained.stores)

end BlobStore

end ContentVault
