import RepairCorpus.Corpus.SequenceFile
import RepairCorpus.Files.Storage
import RepairCorpus.Sequence.Change
import RepairCorpus.Text.Lines

/-!
# Cross validation

A classifier is trained and tested on folds.  In the fold with the number `f`, the sequences of the
bucket `f` are for testing and those of all other buckets for training, so that training and
testing never share a project.

Three categories of sequences take part, always in the same order.  Lines that show no change are
omitted.  Of the nominal lines left in a file, one in every `n` is kept, beginning with the first,
and the others are skipped.  What is retained of a file does not depend on the fold.

Each fold is written to two pairs of files: the lines, and beside them what a classifier is to say.
-/

namespace RepairCorpus

/-- The categories that take part, in their order. -/
def foldCategories : List Category := [.candidate, .mutant, .nominal]

/-! ## Sifting a file -/

/-- What is retained of the lines of a file, and how many lines are not. -/
structure Sifted where
  kept : List String
  omitted : Nat
  skipped : Nat
  deriving DecidableEq, Inhabited

/-- Every `n`-th of some items, the first of which is kept after `wait` others. -/
def everyNth {α : Type} (n wait : Nat) : List α → List α
  | [] => []
  | x :: xs => match wait with
    | 0 => x :: everyNth n (n - 1) xs
    | wait + 1 => everyNth n wait xs

/-- Sifts the content of a file of a category. -/
def sift (category : Category) (sampleEvery : Nat) (content : String) : Sifted :=
  let lines := (Text.lines content).filter fun line => !line.isEmpty
  let changed := lines.filter hasChange
  let kept := if category = .nominal then everyNth sampleEvery 0 changed else changed
  ⟨kept, lines.length - changed.length, changed.length - kept.length⟩

/-! ## Folds -/

/-- How folds are made. -/
structure SplitOptions where
  folds : Nat
  buckets : Nat
  sampleEvery : Nat
  deriving DecidableEq, Inhabited

/-- How many lines of a fold are for training and testing, and how many are not used. -/
structure FoldStats where
  train : Nat
  test : Nat
  omitted : Nat
  skipped : Nat
  deriving DecidableEq, Inhabited

/-- A line with the category of the file it comes from. -/
structure FoldLine where
  category : Category
  text : String
  deriving DecidableEq, Inhabited

/-- A fold under construction. -/
structure Fold where
  train : List FoldLine
  test : List FoldLine
  omitted : Nat
  skipped : Nat
  deriving DecidableEq, Inhabited

namespace Fold

/-- A fold without lines. -/
def empty : Fold := ⟨[], [], 0, 0⟩

/-- Adds what is retained of a file. -/
def add (f : Fold) (isTest : Bool) (category : Category) (s : Sifted) : Fold :=
  let lines := s.kept.map (FoldLine.mk category)
  { train := if isTest then f.train else f.train ++ lines
    test := if isTest then f.test ++ lines else f.test
    omitted := f.omitted + s.omitted
    skipped := f.skipped + s.skipped }

/-- The numbers of lines of a fold. -/
def stats (f : Fold) : FoldStats := ⟨f.train.length, f.test.length, f.omitted, f.skipped⟩

end Fold

/-- The content of a file of lines. -/
def inputText (lines : List FoldLine) : String := Text.unlines (lines.map FoldLine.text)

/-- The content of the file of what a classifier is to say about lines. -/
def expectedText (lines : List FoldLine) : String :=
  Text.unlines (lines.map fun l => l.category.label)

/-- The paths of the two files of a part of a fold. -/
structure PartPaths where
  input : String
  expected : String
  deriving DecidableEq, Inhabited

/-- The paths of the part of a fold with a name. -/
def PartPaths.of (out name : String) (fold : Nat) : PartPaths :=
  let stem := name ++ Text.ofNat fold
  ⟨Files.join out (stem ++ ".input"), Files.join out (stem ++ ".expected")⟩

/-- The files that are read for a fold, in order, each as its bucket and its category. -/
def foldSources (buckets : Nat) : List (Nat × Category) :=
  (List.range buckets).flatMap fun bucket => foldCategories.map fun c => (bucket, c)

namespace Corpus

variable {m : Type → Type} [Monad m] [Storage m]

/-- Work on a fold under construction. -/
abbrev FoldWork (m : Type → Type) (α : Type) := Work (StateT Fold m) α

/-- Reads the files of a fold; files that are missing count as empty. -/
def readSources (start : String) (fold sampleEvery : Nat) : List (Nat × Category) → FoldWork m Unit
  | [] => return
  | (bucket, category) :: sources => do
    let path := sequencePath start category (some bucket) Role.single.extension
    if ← Work.query (Storage.has path) then
      let content ← Work.attempt .readFile path (Storage.read path)
      modify fun f => f.add (bucket = fold) category (sift category sampleEvery content)
    readSources start fold sampleEvery sources

/-- Makes the files of a part of a fold. -/
def createPart (p : PartPaths) : Work m Unit := do
  Work.attempt .createFile p.input (Storage.create p.input)
  Work.attempt .createFile p.expected (Storage.create p.expected)

/-- Writes the files of a part of a fold. -/
def writePart (p : PartPaths) (lines : List FoldLine) : Work m Unit := do
  Work.attempt .flushFile p.input (Storage.overwrite p.input (inputText lines))
  Work.attempt .flushFile p.expected (Storage.overwrite p.expected (expectedText lines))

/-- Makes a fold.  What has been read before something fails is written all the same. -/
def buildFold (start out : String) (options : SplitOptions) (fold : Nat) : Work m FoldStats := do
  let train := PartPaths.of out "train" fold
  let test := PartPaths.of out "test" fold
  createPart train
  createPart test
  let (outcome, f) ← Work.query ((ExceptT.run
    (readSources start fold (max options.sampleEvery 1) (foldSources options.buckets))).run .empty)
  writePart train f.train
  writePart test f.test
  match outcome with
  | .ok () => return f.stats
  | .error t => throw t

/-- Makes folds one after the other. -/
def buildFoldsOf (start out : String) (options : SplitOptions) :
    List Nat → Work m (List (Nat × FoldStats))
  | [] => return []
  | fold :: folds => do
    let stats ← buildFold start out options fold
    return (fold, stats) :: (← buildFoldsOf start out options folds)

/-- Makes all folds from the sequence files in a directory whose names begin with `name`.  The
directory of the folds is made if it is missing. -/
def buildFolds (directory name out : String) (options : SplitOptions) :
    Work m (List (Nat × FoldStats)) := do
  Work.attempt .createDirectory out (Storage.makeDirectories out)
  buildFoldsOf (Files.join directory name) out options (List.range options.folds)

end Corpus

end RepairCorpus
