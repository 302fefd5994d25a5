import RepairCorpus.Corpus.SequenceFile
import RepairCorpus.Files.Storage
import RepairCorpus.Sequence.Generate
import RepairCorpus.Text.Lines

/-!
# Writing sequence files

A sink collects sequences for files of categories and buckets.  A file is made, and emptied if it
was there before, when its first line is added; the lines reach the file when the sink is flushed.
Lines added before something fails reach their files all the same.

The sides of a pair are added one after the other.  Where the file of the second side cannot be
made, the line of the first side has been added already.
-/

namespace RepairCorpus

/-- The lines added so far. -/
structure Sink where
  /-- What the paths of all files begin with. -/
  start : String
  /-- The files that have been made, in the order in which that happened, with their lines in
  reverse. -/
  files : List (String × List String)
  deriving DecidableEq, Inhabited

/-- Work with a sink. -/
abbrev SinkWork (m : Type → Type) (α : Type) := Work (StateT Sink m) α

namespace Sink

/-- The lines of a file that has been made. -/
def linesOf? (s : Sink) (path : String) : Option (List String) :=
  (s.files.lookup path).map List.reverse

/-- Adds a line to the files that have a path. -/
def addTo (path line : String) : List (String × List String) → List (String × List String)
  | [] => []
  | file :: files =>
    if file.1 = path then (file.1, line :: file.2) :: files else file :: addTo path line files

/-- The files with the numbers of their lines, by ascending path. -/
def written (s : Sink) : List (String × Nat) :=
  (s.files.map fun file => (file.1, file.2.length)).mergeSort fun a b => a.1 ≤ b.1

variable {m : Type → Type} [Monad m] [Storage m]

/-- Adds a line to the file of a category, a bucket and a role. -/
def addLine (category : Category) (bucket : Option Nat) (role : Role) (ts : List Token) :
    SinkWork m Unit := do
  let path := sequencePath (← get).start category bucket role.extension
  if ((← get).files.lookup path).isNone then
    Work.attempt .createFile path (Storage.create path)
    modify fun s => { s with files := s.files ++ [(path, [])] }
  modify fun s => { s with files := addTo path (lineOf ts) s.files }

/-- Adds a sequence that is no pair. -/
def addSequence (category : Category) (bucket : Option Nat) (ts : List Token) :
    SinkWork m Unit :=
  addLine category bucket .single ts

/-- Adds the two sides of a pair. -/
def addPair (category : Category) (bucket : Option Nat) (buggy correct : List Token) :
    SinkWork m Unit := do
  addLine category bucket .buggy buggy
  addLine category bucket .correct correct

/-- Writes the lines of files. -/
def flushFiles : List (String × List String) → Work m Unit
  | [] => return
  | (path, lines) :: files => do
    Work.attempt .flushFile path (Storage.overwrite path (Text.unlines lines.reverse))
    flushFiles files

/-- Writes the lines of all files. -/
def flush (s : Sink) : Work m Unit := flushFiles s.files

/-- Runs some work with a new sink and flushes the sink, whether the work has come to its end or
not. -/
def run {α : Type} (start : String) (work : SinkWork m α) : Work m α := do
  Work.makeParent start
  let (outcome, s) ← Work.query ((ExceptT.run work).run ⟨start, []⟩)
  let flushed ← Work.query (ExceptT.run s.flush)
  match outcome, flushed with
  | .error e, _ => throw e
  | _, .error e => throw e
  | .ok x, .ok () => return x

end Sink

end RepairCorpus
