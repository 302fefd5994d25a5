import RepairCorpus.Vocabulary.Known
import RepairCorpus.Vocabulary.Miner
import RepairCorpus.Vocabulary.Word

/-!
# Building a vocabulary

A builder mines the words of trees; its vocabulary is the set of words resident in the end.
-/

namespace RepairCorpus

/-- A miner with the number of trees it has read. -/
structure VocabularyBuilder where
  miner : Miner
  trees : Nat
  deriving Inhabited

namespace VocabularyBuilder

/-- A builder of a vocabulary of at most `size` words. -/
def new (size : Nat) : Except Error VocabularyBuilder :=
  (Miner.new size).map fun m => ⟨m, 0⟩

/-- Reads all words of a tree. -/
def addTree (b : VocabularyBuilder) (n : Node) : VocabularyBuilder :=
  ⟨b.miner.addAll n.words, b.trees + 1⟩

/-- The words to know, the most frequent first. -/
def topWords (b : VocabularyBuilder) : List String := b.miner.ranking.map Resident.word

/-- The vocabulary mined so far. -/
def build (b : VocabularyBuilder) : Vocabulary := .ofList b.topWords

end VocabularyBuilder

end RepairCorpus
