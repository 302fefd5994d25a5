import RepairCorpus.Mutation.Patch
import RepairCorpus.Sequence.Generate

/-!
# Mutants

The mutants of a tree are the sequences it has with one inserted try statement detached.  A run
goes through the candidates in order: each one is detached, the tree is written, and the patch
puts the tree back, so that the next candidate meets the tree as it was.

The candidates are found once, at the start of a run.
-/

namespace RepairCorpus

/-- The outcome for one candidate. -/
inductive Mutant where
  | sequence (tokens : List Token)
  /-- The owner does not give up try statements. -/
  | skipped (owner : Kind)
  deriving DecidableEq, Inhabited

/-- A run over the candidates of a tree: the tree as it stands, and the candidates to come. -/
structure MutantRun where
  tree : Node
  pending : List Candidate
  deriving Inhabited

namespace MutantRun

/-- A run at its start. -/
def start (tree : Node) : MutantRun := ⟨tree, tree.candidates⟩

/-- Detaches a candidate, writes the tree, and puts it back.  An error of the writing shows only
after the tree has been put back. -/
def mutate (tree : Node) (c : Candidate) : Except Error Mutant × Node :=
  match tree.detach c with
  | .error (.unsupportedOwner kind) => (.ok (.skipped kind), tree)
  | .error e => (.error e, tree)
  | .ok (detached, patch) =>
    match detached.restore patch with
    | .error e => (.error e, detached)
    | .ok restored => (detached.sequence.map .sequence, restored)

/-- The outcome for the next candidate, and the run after it. -/
def next? (run : MutantRun) : Option (Except Error Mutant × MutantRun) :=
  match run.pending with
  | [] => none
  | c :: pending =>
    let (result, tree) := mutate run.tree c
    some (result, ⟨tree, pending⟩)

/-- The sequences for the candidates to come, up to the first error, and the tree afterwards. -/
def sequencesFrom (tree : Node) : List Candidate → Except Error (List (List Token)) × Node
  | [] => (.ok [], tree)
  | c :: pending =>
    match mutate tree c with
    | (.error e, tree) => (.error e, tree)
    | (.ok (.skipped _), tree) => sequencesFrom tree pending
    | (.ok (.sequence ts), tree) =>
      let (rest, tree) := sequencesFrom tree pending
      (rest.map (ts :: ·), tree)

end MutantRun

/-- The sequences of all mutants of a tree, candidates that are skipped left out. -/
def Node.mutantSequences (n : Node) : Except Error (List (List Token)) :=
  (MutantRun.sequencesFrom n n.candidates).1

end RepairCorpus
