import RepairCorpus.Abstraction.Hiding

/-!
# Abstraction of a tree

Before a tree is written for training, deep constructs are collapsed and then, if a vocabulary is
given, unknown words are hidden.  Each tree starts numbering its identifiers anew.
-/

namespace RepairCorpus

/-- How trees are abstracted. -/
structure AbstractionSettings where
  placeholders : PlaceholderMap
  /-- Whether hidden identifiers are told apart by numbers. -/
  uniqueIdentifiers : Bool

/-- An abstracted tree, with the numbers of constructs collapsed and of words hidden. -/
structure Prepared where
  tree : Node
  structural : Nat
  vocabulary : Nat
  deriving Inhabited

/-- Abstracts a tree. -/
def Node.prepare (n : Node) (settings : AbstractionSettings) (v : Option Vocabulary) : Prepared :=
  let collapsed := n.collapse settings.placeholders n.defaultMinDepth
  match v with
  | none => ⟨collapsed.tree, collapsed.replaced, 0⟩
  | some v =>
    let hidden := collapsed.tree.hide v settings.uniqueIdentifiers 0
    ⟨hidden.tree, collapsed.replaced, hidden.replaced⟩

end RepairCorpus
