import RepairCorpus.Syntax.Path

/-!
# Candidates for mutation

A repair often consists of putting code into a try statement.  Every try statement that the change
inserted is therefore a place where a bug can be planted: take the statement apart again and the
bug is back.

A candidate is named by the path to its owner, the construct it is a part of, and its number among
the owner's parts.  The root has no owner and is never a candidate.
-/

namespace RepairCorpus

/-- The place of a try statement: its owner, and its number among the owner's parts. -/
structure Candidate where
  owner : Path
  index : Nat
  deriving DecidableEq, Inhabited

namespace Candidate

/-- The path to the try statement itself. -/
def path (c : Candidate) : Path := c.owner ++ [c.index]

/-- The candidate at the end of a path that is not empty. -/
def ofPath? (p : Path) : Option Candidate :=
  p.getLast?.map fun i => ⟨p.dropLast, i⟩

@[simp] theorem ofPath?_path (c : Candidate) : ofPath? c.path = some c := by
  simp [ofPath?, path]

end Candidate

namespace Node

/-- Whether a node is a try statement that the change inserted. -/
def isInsertedTry (n : Node) : Bool := n.kind = .tryStatement && n.own = .inserted

/-- The paths to inserted try statements in a tree, the root included, each before those that
extend it and parts in source order. -/
def insertedTries : Node → List Path :=
  fold fun own _ form =>
    (if form.kind = .tryStatement ∧ own = .inserted then [[]] else [])
      ++ (form.children.mapIdx fun i p => p.2.map (i :: ·)).flatten

theorem insertedTries_mk (own underlying : Tag) (form : Form Node) :
    insertedTries ⟨own, underlying, form⟩ =
      (if form.kind = .tryStatement ∧ own = .inserted then [[]] else [])
        ++ (form.children.mapIdx fun i c => (insertedTries c).map (i :: ·)).flatten := by
  rw [insertedTries, fold_mk, ← insertedTries]
  congr 1
  · simp
  · rw [Form.children_map]
    congr 1
    exact List.ext_getElem? fun i => by simp [Function.comp_def]

/-- The candidates of a tree. -/
def candidates (n : Node) : List Candidate := n.insertedTries.filterMap Candidate.ofPath?

end Node

end RepairCorpus
