import RepairCorpus.Files.Content
import RepairCorpus.Files.Path

/-!
# Directories

What commands do to files is modelled on a value: the files and directories below a root
directory, each at its location.  A path is walked name by name from the root; every place passed
on the way has to be a directory, and the parent of the root is the root.

An access fails for one of a few causes, which are those that a user can bring about by the names
and contents of files.
-/

namespace RepairCorpus.Files

/-- Why an access to a file failed. -/
inductive Failure where
  | missing
  | occupied
  | notDirectory
  | isDirectory
  /-- The content is not text. -/
  | notText
  /-- Any other cause, in the words of the machine. -/
  | other (detail : String)
  deriving DecidableEq, Inhabited

/-- The wording of a failure. -/
def Failure.message : Failure → String
  | .missing => "No such file or directory (os error 2)"
  | .occupied => "File exists (os error 17)"
  | .notDirectory => "Not a directory (os error 20)"
  | .isDirectory => "Is a directory (os error 21)"
  | .notText => "stream did not contain valid UTF-8"
  | .other detail => detail

/-- The names that lead from the root to a place. -/
abbrev Location := List String

/-- What is at a place. -/
inductive Entry where
  | file (content : Content)
  | directory
  deriving DecidableEq, Inhabited

/-- Files and directories below a root. -/
structure Directory where
  entries : List (Location × Entry)
  deriving DecidableEq, Inhabited

namespace Directory

/-- The root alone. -/
def empty : Directory := ⟨[]⟩

/-! ## Places -/

/-- What is at a location; the root is always there. -/
def at? (d : Directory) (l : Location) : Option Entry :=
  if l = [] then some .directory else d.entries.lookup l

/-- Puts something at a location, in place of what was there. -/
def put (d : Directory) (l : Location) (e : Entry) : Directory :=
  ⟨(l, e) :: d.entries.filter fun x => x.1 ≠ l⟩

@[simp] theorem at?_root (d : Directory) : d.at? [] = some .directory := rfl

theorem lookup_filter_ne {α β : Type} [BEq α] [LawfulBEq α] [DecidableEq α] {a b : α}
    (h : a ≠ b) (xs : List (α × β)) :
    (xs.filter fun x => x.1 ≠ b).lookup a = xs.lookup a := by
  induction xs with
  | nil => rfl
  | cons x xs ih =>
    obtain ⟨k, v⟩ := x
    rw [List.filter_cons]
    by_cases hk : k = b
    · have hak : (a == k) = false := by simpa [hk] using h
      simp only [hk, ne_eq, not_true_eq_false, decide_false, Bool.false_eq_true, ↓reduceIte]
      rw [List.lookup_cons, ← hk, hak]
      simpa [hk] using ih
    · simp only [ne_eq, hk, not_false_eq_true, decide_true, ↓reduceIte]
      rw [List.lookup_cons, List.lookup_cons, ← ih]

/-- A location holds what was put there last, and putting changes no other. -/
theorem at?_put (d : Directory) (l k : Location) (e : Entry) (h : l ≠ []) :
    (d.put l e).at? k = if k = l then some e else d.at? k := by
  unfold at? put
  by_cases hk : k = l
  · subst hk
    simp [h]
  · have hb : (k == l) = false := by simpa using hk
    by_cases hn : k = []
    · simp [hn, Ne.symm h]
    · rw [if_neg hn, if_neg hk, if_neg hn, List.lookup_cons, hb]
      dsimp only
      exact lookup_filter_ne hk d.entries

/-! ## Walking -/

/-- Walks along names from a location. -/
def walk (d : Directory) : Location → List String → Except Failure Location
  | l, [] => .ok l
  | l, name :: rest =>
    match d.at? l with
    | none => .error .missing
    | some (.file _) => .error .notDirectory
    | some .directory => d.walk (if name = up then l.dropLast else l ++ [name]) rest

/-- The location of a path.  It need not be occupied, but its directory exists. -/
def locate (d : Directory) (path : String) : Except Failure Location := do
  if path.isEmpty then throw .missing
  let l ← d.walk [] (names path)
  match d.at? l with
  | some (.file _) => if endsIdle path then throw .notDirectory else return l
  | _ => return l

/-- What is at a path. -/
def status (d : Directory) (path : String) : Except Failure Entry := do
  let l ← d.locate path
  match d.at? l with
  | some e => return e
  | none => throw .missing

/-! ## Access -/

/-- Whether there is anything at a path. -/
def has (d : Directory) (path : String) : Bool := (d.status path).isOk

/-- Whether there is a file at a path. -/
def hasFile (d : Directory) (path : String) : Bool :=
  match d.status path with
  | .ok (.file _) => true
  | _ => false

/-- The text of a file. -/
def read (d : Directory) (path : String) : Except Failure String := do
  match ← d.status path with
  | .directory => throw .isDirectory
  | .file content =>
    match content.text? with
    | some s => return s
    | none => throw .notText

/-- Makes a file that is empty, in place of one that may be there. -/
def create (d : Directory) (path : String) : Except Failure Directory := do
  let l ← d.locate path
  match d.at? l with
  | some .directory => throw .isDirectory
  | some (.file _) => return d.put l (.file .empty)
  | none => if endsIdle path then throw .isDirectory else return d.put l (.file .empty)

/-- Writes a text from the beginning of a file that exists. -/
def overwrite (d : Directory) (path : String) (s : String) : Except Failure Directory := do
  let l ← d.locate path
  match d.at? l with
  | none => throw .missing
  | some .directory => throw .isDirectory
  | some (.file content) => return d.put l (.file (content.overwrite s))

/-- Walks along names from a location and makes the directories that are missing. -/
def makeAlong (d : Directory) : Location → List String → Except Failure Directory
  | _, [] => .ok d
  | l, name :: rest =>
    let next := if name = up then l.dropLast else l ++ [name]
    match d.at? next with
    | none => (d.put next .directory).makeAlong next rest
    | some .directory => d.makeAlong next rest
    | some (.file _) => .error (if rest.isEmpty then .occupied else .notDirectory)

/-- Makes a directory and those above it, as far as they are missing. -/
def makeDirectories (d : Directory) (path : String) : Except Failure Directory :=
  d.makeAlong [] (names path)

/-- The name of a file directly in the directory at a location. -/
def childFile? (l : Location) (x : Location × Entry) : Option String :=
  match x.2 with
  | .directory => none
  | .file _ => if x.1 ≠ [] ∧ x.1.dropLast = l then x.1.getLast? else none

/-- The names of the files directly in a directory; a file has none in it. -/
def list (d : Directory) (path : String) : Except Failure (List String) := do
  let l ← d.locate path
  match d.at? l with
  | none => throw .missing
  | some (.file _) => return []
  | some .directory => return d.entries.filterMap (childFile? l)

end Directory

end RepairCorpus.Files
