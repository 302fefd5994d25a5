/-!
# Invocations

An invocation names a task with its arguments and says, for all tasks alike, how much is to be told
and which configuration is to be used.
-/

namespace RepairCorpus.Command

/-- Where a corpus is, and how many of its records are to be read at most. -/
structure CorpusArguments where
  code : String
  limit : Option Nat
  deriving DecidableEq, Inhabited

/-- What a run is to do. -/
inductive Task where
  /-- Mines the words of a corpus and saves the most frequent ones. -/
  | vocabulary (corpus : CorpusArguments) (size : Option Nat) (output : String)
  /-- Writes the two sides of all pairs with their change markers. -/
  | sequences (corpus : CorpusArguments) (start : String)
  /-- Writes the two sides of all pairs abstracted. -/
  | abstract (corpus : CorpusArguments) (start : String) (vocabulary : Option String)
  /-- Writes the trees after all commits and their mutants. -/
  | mutants (corpus : CorpusArguments) (start : String)
  /-- Drops pairs that are too long. -/
  | filter (directory out : String) (maxLength : Option Nat)
  /-- Makes the folds of a cross validation. -/
  | folds (directory name out : String) (count : Option Nat)
  deriving DecidableEq, Inhabited

/-- What holds for all tasks. -/
structure CommonArguments where
  /-- Whether the log is to be detailed. -/
  verbose : Bool
  /-- Whether nothing but errors is to be told. -/
  quiet : Bool
  config : Option String
  deriving DecidableEq, Inhabited

/-- A task and what holds for all tasks. -/
structure Invocation where
  common : CommonArguments
  task : Task
  deriving DecidableEq, Inhabited

/-- What a command line asks for. -/
inductive Request where
  | run (invocation : Invocation)
  | help
  | version
  /-- The command line makes no sense. -/
  | misuse
  deriving DecidableEq, Inhabited

/-- The line that tells the version. -/
def versionLine : String := "repair-seq 0.1.0"

end RepairCorpus.Command
