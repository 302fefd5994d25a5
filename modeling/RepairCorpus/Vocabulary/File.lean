import RepairCorpus.Files.Storage
import RepairCorpus.Vocabulary.Known

/-!
# Vocabulary files

A vocabulary is saved in the order in which its words are given and loaded as a set.
-/

namespace RepairCorpus.Vocabulary

variable {m : Type → Type} [Monad m] [Storage m]

/-- Saves words to a file, whose directory is made if it is missing. -/
def save (path : String) (words : List String) : Work m Unit := do
  Work.makeParent path
  Work.writeFile .writeVocabulary path (render words)

/-- Loads a vocabulary from a file. -/
def load (path : String) : Work m Vocabulary := do
  return parse (← Work.attempt .readVocabulary path (Storage.read path))

end RepairCorpus.Vocabulary
