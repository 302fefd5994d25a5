import RepairCorpus.Syntax.Node

/-!
# Words of a tree

The words that count are the names of identifiers and the tokens of literals.  Regular
expressions are too varied to be words, and a placeholder is not part of the source.
-/

namespace RepairCorpus

namespace Form

/-- The word of a construct, if it has one. -/
def word? {α : Type} : Form α → Option String
  | .identifier name => some name
  | .literal (.regex _) _ _ => none
  | .literal _ _ (some _) => none
  | .literal _ raw none => some (literalToken raw)
  | _ => none

end Form

namespace Node

/-- The word of a node, if it has one. -/
def word? (n : Node) : Option String := n.form.word?

/-- The words of a tree: a node's own word comes before those of its parts, and the words of a
later part before those of an earlier one. -/
def words : Node → List String :=
  fold fun _ _ form => form.word?.toList ++ (form.children.map Prod.snd).reverse.flatten

theorem words_mk (own underlying : Tag) (form : Form Node) :
    words ⟨own, underlying, form⟩
      = form.word?.toList ++ (form.children.map words).reverse.flatten := by
  rw [words, fold_mk, ← words]
  congr 1
  · cases form <;> try rfl
    next v _ r => cases v <;> cases r <;> rfl
  · simp [Function.comp_def]

end Node

end RepairCorpus
