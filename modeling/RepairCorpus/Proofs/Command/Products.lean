import RepairCorpus.Command.Run
import RepairCorpus.Proofs.Corpus.Fates
import RepairCorpus.Proofs.Corpus.SinkFiles
import RepairCorpus.Proofs.Mutation.Runs

/-!
# Products of a corpus

The tasks on a corpus that write sequences differ in what they make of a pair and in nothing else.  What a
run writes is therefore one list: the sequences of all pairs of all records, in order, each labelled with
the numbers of its line and its pair and with the project of its record.  A line that is no record and a
pair that fails have no part in it.

The bucket of a product does not show in the list; it is read off the projects of the whole corpus.  That
the loop over the records, which learns of the projects one by one, comes to the same buckets is
`additionsFrom_processLines`.

* `PairSequence`, `madeOf`: what is made of a pair.
* `Product`, `products`: what a run writes.
* `adds_writePair`, `adds_writeMutantSet`, `writeOutcomes_eq`: writing is adding a stream to a sink.
* `additionsFrom_processLines`: **the stream of a run is the list of its products**, each with the bucket
  that the corpus gives to its project.
-/

namespace RepairCorpus

/-! ## What is made of a pair -/

/-- A sequence that is made of a pair. -/
structure PairSequence where
  category : Category
  role : Role
  tokens : List Token
  deriving DecidableEq

/-- The two sides of a pair. -/
def SequencePair.sequences (p : SequencePair) : List PairSequence :=
  [⟨p.category, .buggy, p.buggy⟩, ⟨p.category, .correct, p.correct⟩]

/-- The sequence of a tree and those of its mutants, in their order. -/
def MutantSet.sequences (s : MutantSet) : List PairSequence :=
  ⟨s.category, .single, s.unmutated⟩ :: s.mutants.map fun ts => ⟨.mutant, .single, ts⟩

/-- The sequences of what is made of a pair; there are none if that fails or gives nothing. -/
def madeOf {α : Type} (sequences : α → List PairSequence) :
    Except Error (Option α) → List PairSequence
  | .ok (some item) => sequences item
  | .ok none => []
  | .error _ => []

/-- The two sides of a pair with their change markers. -/
def annotatedSequences (p : SlicePair) : List PairSequence :=
  madeOf SequencePair.sequences (p.annotated.map some)

/-- The two sides of a pair abstracted. -/
def abstractedSequences (settings : AbstractionSettings) (v : Option Vocabulary) (p : SlicePair) :
    List PairSequence :=
  madeOf SequencePair.sequences (p.abstracted settings v)

/-- The tree after the commit of a pair and its mutants. -/
def mutantSequences (p : SlicePair) : List PairSequence :=
  madeOf MutantSet.sequences (p.mutants.map some)

/-! ## Products -/

/-- A sequence that a run writes, with the numbers of the line and the pair that it comes from and with the
project of its record. -/
structure Product where
  line : Nat
  pair : Nat
  project : String
  sequence : PairSequence
  deriving DecidableEq

/-- The record of a line, if it is one. -/
def recordOf? (line : String) : Option Record := (Record.ofLine line).toOption

/-- The projects of the records of a corpus, in order. -/
def projectsOf (lines : List String) : List String := (lines.filterMap recordOf?).map Record.project

/-- The bucket that a project has when all records of a corpus have been seen. -/
def finalBucket? (count : Nat) (lines : List String) (project : String) : Option Nat :=
  ((Buckets.new count).seeAll (projectsOf lines)).bucket? project

/-- What a run writes for a record. -/
def recordProducts (make : SlicePair → List PairSequence) (line : Nat) (r : Record) : List Product :=
  r.pairs.zipIdx.flatMap fun p => (make p.1).map (Product.mk line p.2 r.project)

/-- What a run writes for the lines of a corpus, of which the first one has the number `first`. -/
def productsFrom (make : SlicePair → List PairSequence) (first : Nat) (lines : List String) :
    List Product :=
  (lines.zipIdx first).flatMap fun line => (recordOf? line.1).toList.flatMap (recordProducts make line.2)

/-- What a run writes for a corpus. -/
def products (make : SlicePair → List PairSequence) (lines : List String) : List Product :=
  productsFrom make 0 lines

/-- A sequence in the stream of a run, with the file it belongs to. -/
def Product.addition (count : Nat) (projects : List String) (p : Product) : Addition :=
  ⟨⟨p.sequence.category, some (bucketOf count projects p.project), p.sequence.role⟩, p.sequence.tokens⟩

/-- The sequences of a pair in the stream of a run. -/
def additionsTo (bucket : Nat) (sequences : List PairSequence) : List Addition :=
  sequences.map fun s => ⟨⟨s.category, some bucket, s.role⟩, s.tokens⟩

/-! ## Writing -/

namespace Command

section

variable {m : Type → Type} [Monad m] [Storage m] {α : Type}

theorem writeMutants_eq (bucket : Nat) (mutants : List (List Token)) :
    (writeMutants bucket mutants : SinkWork m Unit) =
      Sink.addAll (additionsTo bucket (mutants.map fun ts => ⟨.mutant, .single, ts⟩)) := by
  induction mutants with
  | nil => rfl
  | cons ts mutants ih => rw [writeMutants, ih]; rfl

variable [LawfulMonad m]

/-- Writing an item to a bucket adds its sequences to a sink. -/
def Adds (write : Nat → α → SinkWork m Nat) (sequences : α → List PairSequence) : Prop :=
  ∀ bucket item, ∃ n,
    write bucket item = (do Sink.addAll (additionsTo bucket (sequences item)); return n)

theorem adds_writePair : Adds (writePair : Nat → SequencePair → SinkWork m Nat)
    SequencePair.sequences := by
  intro bucket p
  refine ⟨1, ?_⟩
  simp [writePair, Sink.addPair, additionsTo, SequencePair.sequences, Sink.addAll]

theorem adds_writeMutantSet : Adds (writeMutantSet : Nat → MutantSet → SinkWork m Nat)
    MutantSet.sequences := by
  intro bucket s
  refine ⟨1 + s.mutants.length, ?_⟩
  rw [writeMutantSet, writeMutants_eq]
  simp [additionsTo, MutantSet.sequences, Sink.addAll, Sink.addSequence]

/-- The stream of a run over the outcomes of a corpus. -/
def additionsFrom (sequences : α → List PairSequence) (b : Buckets) :
    List (Option (Outcome α)) → List Addition
  | [] => []
  | none :: outcomes => additionsFrom sequences b outcomes
  | some o :: outcomes =>
    o.items.flatMap (fun item => additionsTo (b.assign o.project).1 (sequences item))
      ++ additionsFrom sequences (b.assign o.project).2 outcomes

variable {write : Nat → α → SinkWork m Nat} {sequences : α → List PairSequence}

theorem writeItems_eq (hwrite : Adds write sequences) (bucket : Nat) (items : List α) :
    ∃ n, writeItems write bucket items =
      (do Sink.addAll (items.flatMap fun item => additionsTo bucket (sequences item)); return n) := by
  induction items with
  | nil => exact ⟨0, by simp [writeItems, Sink.addAll]⟩
  | cons item items ih =>
    obtain ⟨n, hitem⟩ := hwrite bucket item
    obtain ⟨n', ih⟩ := ih
    refine ⟨n + n', ?_⟩
    rw [writeItems, hitem, ih, List.flatMap_cons, Sink.addAll_append]
    simp

/-- **Writing what has become of a corpus is adding a stream to a sink.** -/
theorem writeOutcomes_eq (hwrite : Adds write sequences) (b : Buckets) (s : Summary)
    (outcomes : List (Option (Outcome α))) :
    ∃ s', writeOutcomes write b s outcomes =
      (do Sink.addAll (additionsFrom sequences b outcomes); return s') := by
  induction outcomes generalizing b s with
  | nil => exact ⟨s, by simp [writeOutcomes, additionsFrom, Sink.addAll]⟩
  | cons o outcomes ih =>
    cases o with
    | none => exact ih b _
    | some o =>
      obtain ⟨n, hitems⟩ := writeItems_eq hwrite (b.assign o.project).1 o.items
      obtain ⟨s', hrest⟩ := ih (b.assign o.project).2
        { s with
          records := s.records + 1
          sequences := s.sequences + n
          failedPairs := s.failedPairs + o.failures.length }
      refine ⟨s', ?_⟩
      rw [writeOutcomes, additionsFrom, Sink.addAll_append]
      dsimp only
      rw [hitems]
      simp [hrest]

end

/-! ## Streams of corpora -/

variable {α : Type} {sequences : α → List PairSequence}

/-- The stream for a record is what is made of its pairs. -/
theorem flatMap_items_eachPair (work : SlicePair → Except Error (Option α)) (r : Record) (bucket : Nat) :
    (r.eachPair work).items.flatMap (fun item => additionsTo bucket (sequences item)) =
      r.pairs.flatMap fun p => additionsTo bucket (madeOf sequences (work p)) := by
  rw [Record.items_eachPair, List.filterMap_eq_flatMap_toList, List.flatMap_assoc]
  refine List.flatMap_congr fun p _ => ?_
  cases work p with
  | error e => rfl
  | ok item =>
    cases item with
    | none => rfl
    | some item => exact List.flatMap_singleton _ _

theorem map_addition_recordProducts (make : SlicePair → List PairSequence) (line count : Nat)
    (projects : List String) (r : Record) :
    (recordProducts make line r).map (Product.addition count projects) =
      r.pairs.flatMap fun p => additionsTo (bucketOf count projects r.project) (make p) := by
  rw [recordProducts, List.map_flatMap]
  conv_rhs => rw [← List.zipIdx_map_fst 0 r.pairs, List.flatMap_map]
  refine List.flatMap_congr fun p _ => ?_
  rw [List.map_map]
  rfl

/-- **The stream of a run is the list of its products**, each with the bucket that the corpus gives to its
project. -/
theorem additionsFrom_processLines (work : SlicePair → Except Error (Option α)) {b : Buckets}
    {count : Nat} {seen : List String} (hb : b.Saw count seen) (first : Nat) (lines : List String) :
    additionsFrom sequences b (processLines (Record.eachPair work) lines) =
      (productsFrom (fun p => madeOf sequences (work p)) first lines).map
        (Product.addition count (seen ++ projectsOf lines)) := by
  induction lines generalizing b seen first with
  | nil => rfl
  | cons line lines ih =>
    rw [processLines, List.map_cons, ← processLines, productsFrom, List.zipIdx_cons, List.flatMap_cons,
      ← productsFrom, List.map_append, projectsOf]
    cases hline : Record.ofLine line with
    | error e =>
      have hnone : recordOf? line = none := by rw [recordOf?, hline]; rfl
      rw [List.filterMap_cons_none hnone, hnone, ← projectsOf]
      exact ih hb (first + 1)
    | ok r =>
      have hsome : recordOf? line = some r := by rw [recordOf?, hline]; rfl
      obtain ⟨hbucket, hb'⟩ := hb.assign r.project
      have hmem : r.project ∈ seen ++ [r.project] := List.mem_append_right _ (.head _)
      rw [List.filterMap_cons_some hsome, List.map_cons, hsome, ← projectsOf, List.append_cons]
      dsimp only
      rw [additionsFrom, show (r.eachPair work).project = r.project from rfl, ih hb' (first + 1),
        Option.toList_some, List.flatMap_singleton, map_addition_recordProducts, bucketOf_append hmem,
        ← hbucket]
      exact congrArg (· ++ _) (flatMap_items_eachPair work r _)

end Command

end RepairCorpus
