import RepairCorpus.Corpus.Record
import RepairCorpus.Files.Storage
import RepairCorpus.Text.Blank
import RepairCorpus.Text.Lines

/-!
# Corpus files

A corpus is a text file with one record per line; lines of nothing but blanks do not count.  A
line that is no record is left in its place, so that everybody agrees on the numbers of the others.
-/

namespace RepairCorpus.Corpus

/-- The lines of a corpus. -/
def recordLines (content : String) : List String :=
  (Text.lines content).filter fun line => !Text.isBlankText line

variable {m : Type → Type} [Monad m] [Storage m]

/-- Reads the lines of a corpus file. -/
def readLines (path : String) : Work m (List String) := do
  return recordLines (← Work.attempt .readCorpus path (Storage.read path))

/-- Reads at most `limit` lines of a corpus file, which has to be there; a limit of zero makes no
sense. -/
def load (path : String) (limit : Option Nat) : Work m (List String) := do
  if !(← Work.query (Storage.hasFile path)) then throw (.noCorpus path)
  if limit = some 0 then throw .zeroLimit
  let lines ← readLines path
  match limit with
  | none => return lines
  | some n => return lines.take n

end RepairCorpus.Corpus
