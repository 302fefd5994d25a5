import RepairCorpus.Files.Storage

/-!
# Configuration files

Loading reports the first thing that is wrong: the file, its notation, or what it says.  Nothing is
written for a configuration that has no written form.  Readers and writers of the notations are
given.
-/

namespace RepairCorpus.Config

variable {m : Type → Type} [Monad m] [Storage m]

/-- Loads a configuration from a file. -/
def load (lib : Notations) (path : String) : Work m Config := do
  let text ← Work.attempt .readConfig path (Storage.read path)
  let dialect := Dialect.ofExtension (Files.extension? path)
  match parse? lib dialect text with
  | none => throw (.unreadableConfig dialect path)
  | some (.error fault) => throw (.config fault)
  | some (.ok c) => return c

/-- The configuration of a file, or the standard one where no file is named. -/
def loadOrStandard (lib : Notations) : Option String → Work m Config
  | none => return standard
  | some path => load lib path

/-- Saves a configuration to a file. -/
def save (lib : Notations) (c : Config) (path : String) : Work m Unit :=
  match c.toToml? lib with
  | none => throw .unwritableConfig
  | some text => Work.writeFile .writeConfig path text

end RepairCorpus.Config
