import Std.Data.HashSet
import RepairCorpus.Text.Lines

/-!
# Known words

A vocabulary is a set of words.  It is kept in a file with one word per line, separated by line
feeds and with none at the end; empty lines are no words.
-/

namespace RepairCorpus

/-- A set of words. -/
structure Vocabulary where
  words : Std.HashSet String

namespace Vocabulary

/-- The set of some words. -/
def ofList (ws : List String) : Vocabulary := ⟨.ofList ws⟩

/-- Whether a word is known. -/
def contains (v : Vocabulary) (word : String) : Bool := v.words.contains word

/-- The number of known words. -/
def size (v : Vocabulary) : Nat := v.words.size

/-- The content of a file of words. -/
def render (ws : List String) : String := "\n".intercalate ws

/-- The words of a file's content. -/
def parse (content : String) : Vocabulary := ofList ((Text.lines content).filter (!·.isEmpty))

@[simp] theorem contains_ofList (ws : List String) (word : String) :
    (ofList ws).contains word = ws.contains word := by
  simp [ofList, contains]

end Vocabulary

end RepairCorpus
