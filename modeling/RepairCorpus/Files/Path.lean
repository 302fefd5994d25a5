/-!
# Paths

Commands name files by paths in text form, and messages repeat them as they were given, so paths
stay texts.  What can be asked of a path is decided by its pieces, the texts between its slashes.

* `names`: the pieces that matter to a walk, which are all but the empty ones and the single dots.
* `fileName?`, `extension?`: of the last name.
* `parent?`: the path without its last name, as it was written.
* `join`: a name in a directory.
-/

namespace RepairCorpus.Files

/-! ## Pieces -/

/-- The pieces between slashes; there is always one more than there are slashes. -/
def pieces : List Char → List (List Char)
  | [] => [[]]
  | c :: cs =>
    if c = '/' then [] :: pieces cs
    else
      match pieces cs with
      | [] => [[c]]
      | p :: ps => (c :: p) :: ps

/-- Pieces with slashes between them. -/
def unpieces (ps : List (List Char)) : List Char := ['/'].intercalate ps

/-- Whether a piece leads nowhere. -/
def isIdle (piece : List Char) : Bool := piece = [] || piece = ['.']

/-- The names along a path. -/
def names (path : String) : List String :=
  ((pieces path.toList).filter fun p => !isIdle p).map String.ofList

/-- The name of the parent directory. -/
def up : String := ".."

/-- Whether a path ends behind its last name, so that only a directory can be meant. -/
def endsIdle (path : String) : Bool :=
  match (pieces path.toList).reverse with
  | last :: _ :: _ => isIdle last
  | _ => false

/-- Whether a path starts at the root of all files. -/
def isAbsolute (path : String) : Bool := path.toList.head? = some '/'

/-! ## Names -/

/-- The last name of a path, unless that is the parent directory. -/
def fileName? (path : String) : Option String :=
  (names path).getLast?.filter fun name => name ≠ up

/-- What stands behind the last dot of the last name; a dot at its beginning does not count. -/
def extension? (path : String) : Option String :=
  (fileName? path).bind fun name =>
    let back := name.toList.reverse
    match back.dropWhile (· ≠ '.') with
    | _ :: _ :: _ => some (String.ofList (back.takeWhile (· ≠ '.')).reverse)
    | _ => none

/-! ## Directories -/

/-- Removes idle pieces from the end, but never the first piece. -/
def trimmed (ps : List (List Char)) : List (List Char) :=
  match ps with
  | [] => []
  | p :: ps => p :: (ps.reverse.dropWhile isIdle).reverse

/-- A path without its last name.  The root and the empty path have no parent; the parent of a
single name is the empty path. -/
def parent? (path : String) : Option String :=
  match trimmed (pieces path.toList) with
  | [[]] => none
  | ps =>
    match trimmed ps.dropLast with
    | [[]] => some "/"
    | above => some (String.ofList (unpieces above))

/-- A path inside a directory; an absolute path is not moved. -/
def join (directory path : String) : String :=
  if isAbsolute path || directory.isEmpty then path
  else if directory.toList.getLast? = some '/' then directory ++ path
  else directory ++ "/" ++ path

end RepairCorpus.Files
