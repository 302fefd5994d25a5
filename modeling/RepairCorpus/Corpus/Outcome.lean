import RepairCorpus.Abstraction.Prepare
import RepairCorpus.Corpus.Record
import RepairCorpus.Mutation.Mutants
import RepairCorpus.Vocabulary.Builder

/-!
# Working on a record

Three kinds of sequences are made from records: the two sides of each pair with their change
markers, the same two sides abstracted, and the mutants of the tree after the commit.  Each pair
is worked on by itself.  Where that fails the outcome lists the pair's number and the error, and
the other pairs are not affected.

Vocabularies are mined from the trees after the commit of those pairs that repair a mutant.
-/

namespace RepairCorpus

/-- What working on a record gave, with the pairs that failed. -/
structure Outcome (α : Type) where
  project : String
  items : List α
  failures : List (Nat × Error)
  deriving Inhabited

namespace Record

variable {α : Type}

/-- Works on each pair of a record; a pair may also give nothing. -/
def eachPair (work : SlicePair → Except Error (Option α)) (r : Record) : Outcome α :=
  let results := r.pairs.mapIdx fun i p => (i, work p)
  { project := r.project
    items := results.filterMap fun x => match x.2 with
      | .ok item => item
      | .error _ => none
    failures := results.filterMap fun x => match x.2 with
      | .ok _ => none
      | .error e => some (x.1, e) }

end Record

/-! ## Pairs of sequences -/

/-- The sequences of the two sides of a pair. -/
structure SequencePair where
  category : Category
  buggy : List Token
  correct : List Token
  deriving DecidableEq, Inhabited

namespace SlicePair

/-- The sequences of a pair with their change markers.  A slice that did not exist before the
commit has an empty sequence there. -/
def annotated (p : SlicePair) : Except Error SequencePair := do
  let buggy ← match ← p.before? with
    | some tree => tree.sequence
    | none => pure []
  let correct ← (← p.requiredAfter).sequence
  return ⟨if p.isRepair then .repair else .nominal, buggy, correct⟩

/-- The abstracted sequences of a pair.  A slice that did not exist before the commit gives
nothing. -/
def abstracted (p : SlicePair) (settings : AbstractionSettings) (v : Option Vocabulary) :
    Except Error (Option SequencePair) := do
  match ← p.before? with
  | none => return none
  | some before =>
    let after ← p.requiredAfter
    let buggy ← (before.prepare settings v).tree.sequence
    let correct ← (after.prepare settings v).tree.sequence
    return some ⟨.ofPairType p.type, buggy, correct⟩

end SlicePair

/-! ## Mutants -/

/-- The sequence of a tree with those of its mutants. -/
structure MutantSet where
  /-- The category of the tree itself. -/
  category : Category
  unmutated : List Token
  mutants : List (List Token)
  deriving DecidableEq, Inhabited

/-- The mutants of the tree after the commit. -/
def SlicePair.mutants (p : SlicePair) : Except Error MutantSet := do
  let after ← p.requiredAfter
  let unmutated ← after.sequence
  let mutants ← after.mutantSequences
  return ⟨if p.isRepair then .candidate else .nominal, unmutated, mutants⟩

/-! ## Records -/

namespace Record

/-- The sequences of all pairs with their change markers. -/
def annotated : Record → Outcome SequencePair := eachPair fun p => p.annotated.map some

/-- The abstracted sequences of all pairs. -/
def abstracted (settings : AbstractionSettings) (v : Option Vocabulary) :
    Record → Outcome SequencePair :=
  eachPair fun p => p.abstracted settings v

/-- The mutants of all pairs. -/
def mutants : Record → Outcome MutantSet := eachPair fun p => p.mutants.map some

end Record

/-! ## Mining -/

/-- Mines the pairs that repair a mutant.  The second result counts those whose tree after the
commit cannot be read. -/
def VocabularyBuilder.addRecord (b : VocabularyBuilder) (r : Record) : VocabularyBuilder × Nat :=
  (r.pairs.filter fun p => p.type = .mutantRepair).foldl
    (fun (b, failures) p =>
      match p.requiredAfter with
      | .ok after => (b.addTree after, failures)
      | .error _ => (b, failures + 1))
    (b, 0)

end RepairCorpus
