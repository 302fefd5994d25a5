import RepairCorpus.Trouble

/-!
# Storage

Commands do not say where their files are.  They are written for any storage that offers a few
accesses, and `Directory` is one: there, a command is a function from the files before to the
files after, with the outcome.  The files of a machine are another.

An access that fails is told to the command together with what was attempted.
-/

namespace RepairCorpus

open RepairCorpus.Files (Directory Failure)

/-- Access to files by their paths. -/
class Storage (m : Type → Type) where
  /-- The text of a file. -/
  read : String → m (Except Failure String)
  /-- Makes a file that is empty, in place of one that may be there. -/
  create : String → m (Except Failure Unit)
  /-- Writes a text from the beginning of a file that exists. -/
  overwrite : String → String → m (Except Failure Unit)
  /-- Makes a directory and those above it, as far as they are missing. -/
  makeDirectories : String → m (Except Failure Unit)
  /-- Whether there is anything at a path. -/
  has : String → m Bool
  /-- Whether there is a file at a path. -/
  hasFile : String → m Bool
  /-- The names of the files directly in a directory. -/
  list : String → m (Except Failure (List String))

namespace Storage

/-- A change of a directory as an access that may fail. -/
def change (f : Directory → Except Failure Directory) : StateM Directory (Except Failure Unit) :=
  fun d =>
    match f d with
    | .ok d' => (.ok (), d')
    | .error e => (.error e, d)

/-- A question about a directory. -/
def ask {α : Type} (f : Directory → α) : StateM Directory α := fun d => (f d, d)

instance directory : Storage (StateM Directory) where
  read path := ask fun d => d.read path
  create path := change fun d => d.create path
  overwrite path s := change fun d => d.overwrite path s
  makeDirectories path := change fun d => d.makeDirectories path
  has path := ask fun d => d.has path
  hasFile path := ask fun d => d.hasFile path
  list path := ask fun d => d.list path

instance state {σ : Type} {m : Type → Type} [Monad m] [Storage m] : Storage (StateT σ m) where
  read path := StateT.lift (read path)
  create path := StateT.lift (create path)
  overwrite path s := StateT.lift (overwrite path s)
  makeDirectories path := StateT.lift (makeDirectories path)
  has path := StateT.lift (has path)
  hasFile path := StateT.lift (hasFile path)
  list path := StateT.lift (list path)

end Storage

/-- Work on files that may run into trouble. -/
abbrev Work (m : Type → Type) (α : Type) := ExceptT Trouble m α

namespace Work

variable {m : Type → Type} [Monad m] {α : Type}

/-- Makes an access, with the trouble if it fails. -/
def attempt (a : Attempt) (path : String) (access : m (Except Failure α)) : Work m α :=
  ExceptT.mk do
    match ← access with
    | .ok x => return .ok x
    | .error failure => return .error (.access a path failure)

/-- Asks something that cannot fail. -/
def query (access : m α) : Work m α := ExceptT.lift access

variable [Storage m]

/-- Makes a file with a text, in place of one that may be there. -/
def writeFile (a : Attempt) (path text : String) : Work m Unit := do
  attempt a path (Storage.create path)
  attempt a path (Storage.overwrite path text)

/-- Makes the directory that a path leads into, if the path names one. -/
def makeParent (path : String) : Work m Unit :=
  match Files.parent? path with
  | none => pure ()
  | some parent =>
    if parent.isEmpty then pure ()
    else attempt .createDirectory parent (Storage.makeDirectories parent)

end Work

end RepairCorpus
