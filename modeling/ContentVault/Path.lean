import ContentVault.Error

/-!
# Paths

The text of a path, taken apart into the names that lead from directory to
directory.
-/

namespace ContentVault

/-- A path: the names to follow, from the root if it is absolute.  A slash at its
end insists on a directory. -/
structure Path where
  isAbsolute : Bool
  names : List String
  endsInSlash : Bool
  deriving DecidableEq, Repr

namespace Path

/-- The pieces of a text between its slashes. -/
def pieces : List Char → List (List Char)
  | [] => [[]]
  | c :: rest =>
    match pieces rest with
    | [] => [[c]]
    | piece :: others => if c = '/' then [] :: piece :: others else (c :: piece) :: others

/-- The path that a text spells.  The empty text names nothing, and the system
takes neither a NUL nor more than 4095 bytes. -/
def parse (text : String) : Except FileFailure Path :=
  let chars := text.toList
  if '\x00' ∈ chars then .error .nulInPath
  else if chars = [] then .error .noSuchFile
  else if 4096 ≤ text.utf8ByteSize then .error .nameTooLong
  else .ok
    { isAbsolute := chars.head? = some '/'
      names := ((pieces chars).filter (· ≠ [])).map String.ofList
      endsInSlash := chars.getLast? = some '/' }

def join (directory name : String) : String :=
  if directory = "" then name
  else if directory.toList.getLast? = some '/' then directory ++ name
  else directory ++ "/" ++ name

/-- The names without those that stay in place; a relative path keeps one at its
beginning. -/
def plainNames (path : Path) : List String :=
  match path.names with
  | [] => []
  | first :: rest =>
    let rest := rest.filter (· ≠ ".")
    if first = "." ∧ path.isAbsolute then rest else first :: rest

end Path

end ContentVault
