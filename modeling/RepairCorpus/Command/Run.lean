import RepairCorpus.Command.Invocation
import RepairCorpus.Command.Notice
import RepairCorpus.Config.File
import RepairCorpus.Corpus.Buckets
import RepairCorpus.Corpus.Filter
import RepairCorpus.Corpus.Folds
import RepairCorpus.Corpus.Outcome
import RepairCorpus.Corpus.Sink
import RepairCorpus.Corpus.Source
import RepairCorpus.Vocabulary.File

/-!
# Running a task

A task on a corpus reads all records, works on each of them by itself, and writes what has become
of them in the order of the corpus.  A line that is no record is counted and passed over.  Every
other record is given the bucket of its project, whatever has become of its pairs.

What a run tells is collected, and what has been told before something fails stays told.
-/

namespace RepairCorpus.Command

/-- Work that tells things. -/
abbrev Telling (m : Type → Type) (α : Type) := Work (StateT (List Notice) m) α

/-- What a task on a corpus has done. -/
structure Summary where
  records : Nat
  malformed : Nat
  sequences : Nat
  failedPairs : Nat
  deriving DecidableEq, Inhabited

/-- Nothing done yet. -/
def Summary.zero : Summary := ⟨0, 0, 0, 0⟩

/-- What has become of the records of a corpus, line by line; a line that is no record gives
nothing. -/
def processLines {α : Type} (process : Record → Outcome α) (lines : List String) :
    List (Option (Outcome α)) :=
  lines.map fun line =>
    match Record.ofLine line with
    | .ok r => some (process r)
    | .error _ => none

/-- Mines the records of a corpus. -/
def mineLines (b : VocabularyBuilder) (lines : List String) : VocabularyBuilder :=
  lines.foldl
    (fun b line =>
      match Record.ofLine line with
      | .ok r => (b.addRecord r).1
      | .error _ => b)
    b

section

variable {m : Type → Type} [Monad m] [Storage m] {α : Type}

/-- Writes items to a bucket and counts their sequences. -/
def writeItems (write : Nat → α → SinkWork m Nat) (bucket : Nat) : List α → SinkWork m Nat
  | [] => return 0
  | item :: items => do
    let n ← write bucket item
    return n + (← writeItems write bucket items)

/-- Writes what has become of records, each to the bucket of its project. -/
def writeOutcomes (write : Nat → α → SinkWork m Nat) (b : Buckets) (s : Summary) :
    List (Option (Outcome α)) → SinkWork m Summary
  | [] => return s
  | none :: outcomes =>
    writeOutcomes write b { s with records := s.records + 1, malformed := s.malformed + 1 } outcomes
  | some o :: outcomes => do
    let (bucket, b) := b.assign o.project
    let n ← writeItems write bucket o.items
    writeOutcomes write b
      { s with
        records := s.records + 1
        sequences := s.sequences + n
        failedPairs := s.failedPairs + o.failures.length }
      outcomes

/-- Writes a pair of sequences. -/
def writePair (bucket : Nat) (p : SequencePair) : SinkWork m Nat := do
  Sink.addPair p.category (some bucket) p.buggy p.correct
  return 1

/-- Writes mutants one after the other. -/
def writeMutants (bucket : Nat) : List (List Token) → SinkWork m Unit
  | [] => return
  | ts :: rest => do
    Sink.addSequence .mutant (some bucket) ts
    writeMutants bucket rest

/-- Writes a sequence and its mutants. -/
def writeMutantSet (bucket : Nat) (s : MutantSet) : SinkWork m Nat := do
  Sink.addSequence s.category (some bucket) s.unmutated
  writeMutants bucket s.mutants
  return 1 + s.mutants.length

/-- Tells something, unless nothing is to be told. -/
def tell (common : CommonArguments) (notice : Notice) : Telling m Unit :=
  if common.quiet then pure () else modify fun notices => notices ++ [notice]

/-- Tells several things. -/
def tellAll (common : CommonArguments) : List Notice → Telling m Unit
  | [] => return
  | n :: ns => do
    tell common n
    tellAll common ns

/-- Writes what has become of the records of a corpus to sequence files. -/
def writeCorpus (start : String) (buckets : Nat) (write : Nat → α → SinkWork m Nat)
    (outcomes : List (Option (Outcome α))) : Work m Summary :=
  Sink.run start (writeOutcomes write (.new buckets) .zero outcomes)

/-- Tells what a task on a corpus has done. -/
def report (common : CommonArguments) (s : Summary) : Telling m Unit := do
  tell common (.wroteSequences s.sequences s.records)
  if 0 < s.malformed ∨ 0 < s.failedPairs then tell common (.skipped s.malformed s.failedPairs)

/-- Mines a vocabulary. -/
def runVocabulary (common : CommonArguments) (corpus : CorpusArguments) (size : Nat)
    (output : String) : Telling m Unit := do
  let lines ← Corpus.load corpus.code corpus.limit
  match VocabularyBuilder.new size with
  | .error _ => throw .zeroVocabulary
  | .ok b =>
    let b := mineLines b lines
    let words := b.topWords
    Vocabulary.save output words
    tell common (.savedWords words.length b.trees output)

/-- Writes the two sides of all pairs. -/
def runSequences (common : CommonArguments) (config : Config) (corpus : CorpusArguments)
    (start : String) : Telling m Unit := do
  let lines ← Corpus.load corpus.code corpus.limit
  let summary ← writeCorpus start config.buckets writePair (processLines Record.annotated lines)
  report common summary

/-- Writes the two sides of all pairs abstracted. -/
def runAbstract (common : CommonArguments) (config : Config) (corpus : CorpusArguments)
    (start : String) (vocabulary : Option String) : Telling m Unit := do
  let v ← match vocabulary with
    | none =>
      tell common .noVocabulary
      pure none
    | some path => some <$> Vocabulary.load path
  let lines ← Corpus.load corpus.code corpus.limit
  let outcomes := processLines (Record.abstracted config.abstraction v) lines
  let summary ← writeCorpus start config.buckets writePair outcomes
  report common summary

/-- Writes the trees after all commits and their mutants. -/
def runMutants (common : CommonArguments) (config : Config) (corpus : CorpusArguments)
    (start : String) : Telling m Unit := do
  let lines ← Corpus.load corpus.code corpus.limit
  let summary ← writeCorpus start config.buckets writeMutantSet (processLines Record.mutants lines)
  report common summary

/-- Drops pairs that are too long. -/
def runFilter (common : CommonArguments) (directory out : String) (maxLength : Nat) :
    Telling m Unit := do
  if !(← Work.query (Storage.has directory)) then throw (.noSequences directory)
  let results ← Corpus.filterDirectory directory out maxLength
  let kept := (results.map fun r => r.2.kept).foldr (· + ·) 0
  let dropped := (results.map fun r => r.2.dropped).foldr (· + ·) 0
  tell common (.filtered kept dropped maxLength results.length)

/-- Makes the folds of a cross validation. -/
def runFolds (common : CommonArguments) (directory name out : String) (options : SplitOptions) :
    Telling m Unit := do
  if !(← Work.query (Storage.has directory)) then throw (.noSequences directory)
  if options.folds = 0 ∨ options.buckets < options.folds then throw (.foldRange options.buckets)
  let results ← Corpus.buildFolds directory name out options
  tellAll common (results.map fun r => .fold r.1 r.2.train r.2.test)
  tell common (.builtFolds results.length out)

/-- Runs a task under a configuration. -/
def runTask (common : CommonArguments) (config : Config) : Task → Telling m Unit
  | .vocabulary corpus size output =>
    runVocabulary common corpus (size.getD config.vocabularySize) output
  | .sequences corpus start => runSequences common config corpus start
  | .abstract corpus start vocabulary => runAbstract common config corpus start vocabulary
  | .mutants corpus start => runMutants common config corpus start
  | .filter directory out maxLength =>
    runFilter common directory out (maxLength.getD config.maxLength)
  | .folds directory name out count =>
    runFolds common directory name out
      ⟨count.getD config.folds, config.buckets, config.sampleEvery⟩

/-- Runs an invocation: loads the configuration and runs the task. -/
def Invocation.run (lib : Config.Notations) (i : Invocation) : Telling m Unit := do
  let config ← Config.loadOrStandard lib i.common.config
  runTask i.common config i.task

/-- What there is to show for a run: what it tells, and the trouble it ran into if it did. -/
structure Report where
  notices : List Notice
  trouble : Option Trouble
  deriving DecidableEq, Inhabited

/-- Runs an invocation to its end. -/
def Invocation.execute (lib : Config.Notations) (i : Invocation) : m Report := do
  let (outcome, notices) ← (ExceptT.run (i.run lib)).run []
  match outcome with
  | .ok () => return ⟨notices, none⟩
  | .error t => return ⟨notices, some t⟩

end

end RepairCorpus.Command
