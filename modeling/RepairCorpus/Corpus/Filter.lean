import RepairCorpus.Corpus.SequenceFile
import RepairCorpus.Files.Storage
import RepairCorpus.Text.Blank
import RepairCorpus.Text.Lines

/-!
# Filtering pairs by length

Training copes with sequences up to a length only.  The filter keeps those pairs both of whose
sides are short enough and keeps the two files of a pair aligned.  Files that do not have equally
many lines do not belong together, and nothing is written for them.

A directory is filtered pair by pair, in the order of categories and buckets.  Files without the
file of the other side are passed over.
-/

namespace RepairCorpus

/-- The number of tokens of a line. -/
def lineLength (line : String) : Nat := (Text.words line).length

/-- How many pairs of lines were kept and dropped. -/
structure FilterStats where
  kept : Nat
  dropped : Nat
  deriving DecidableEq, Inhabited

/-- Whether both sides of a pair are short enough. -/
def isShort (maxLength : Nat) (pair : String × String) : Bool :=
  lineLength pair.1 ≤ maxLength && lineLength pair.2 ≤ maxLength

/-- The pairs of lines that are short enough. -/
def shortPairs (maxLength : Nat) (buggy correct : List String) : List (String × String) :=
  (buggy.zip correct).filter (isShort maxLength)

/-- The files of the pairs of one category and bucket. -/
structure FilePair where
  category : Category
  bucket : Nat
  buggy : Option String
  correct : Option String
  deriving DecidableEq, Inhabited

namespace FilePair

/-- Whether a pair of files comes before another one. -/
def precedes (p q : FilePair) : Bool :=
  p.category.rank < q.category.rank
    || (p.category.rank = q.category.rank && p.bucket ≤ q.bucket)

/-- A pair of files with the path of one of them. -/
def withPath (p : FilePair) (role : Role) (path : String) : FilePair :=
  match role with
  | .buggy => { p with buggy := some path }
  | _ => { p with correct := some path }

/-- Puts the path of a file into the pair of its category and bucket. -/
def put (category : Category) (bucket : Nat) (role : Role) (path : String) :
    List FilePair → List FilePair
  | [] => [(⟨category, bucket, none, none⟩ : FilePair).withPath role path]
  | p :: ps =>
    if p.category = category ∧ p.bucket = bucket then p.withPath role path :: ps
    else p :: put category bucket role path ps

/-- Sorts files in a directory into pairs; a name that looks like that of a pair must have the
number of a bucket. -/
def ofNames (directory : String) (pairs : List FilePair) :
    List String → Except Trouble (List FilePair)
  | [] => .ok (pairs.mergeSort precedes)
  | name :: names =>
    match PairName.parse? name with
    | none => ofNames directory pairs names
    | some p =>
      match p.bucket with
      | .error fault => .error (.bucketNumber name fault)
      | .ok bucket =>
        ofNames directory (put p.category bucket p.role (Files.join directory name) pairs) names

end FilePair

namespace Corpus

variable {m : Type → Type} [Monad m] [Storage m]

/-- Finds the pairs of files directly in a directory. -/
def findPairs (directory : String) : Work m (List FilePair) := do
  let names ← Work.attempt .listDirectory directory (Storage.list directory)
  match FilePair.ofNames directory [] names with
  | .ok pairs => return pairs
  | .error t => throw t

/-- Makes the output file for an input file, with the same last name, and gives its path. -/
def createOutput (out input : String) : Work m String := do
  match Files.fileName? input with
  | none => throw (.nameless input)
  | some name =>
    let path := Files.join out name
    Work.attempt .createFile path (Storage.create path)
    return path

/-- Filters a pair of files into a directory. -/
def filterPair (buggy correct out : String) (maxLength : Nat) : Work m FilterStats := do
  let buggyText ← Work.attempt .readFile buggy (Storage.read buggy)
  let correctText ← Work.attempt .readFile correct (Storage.read correct)
  let buggyLines := Text.lines buggyText
  let correctLines := Text.lines correctText
  if buggyLines.length ≠ correctLines.length then
    throw (.unequalLengths buggy buggyLines.length correct correctLines.length)
  let buggyOut ← createOutput out buggy
  let correctOut ← createOutput out correct
  let kept := shortPairs maxLength buggyLines correctLines
  Work.attempt .flushFile buggyOut
    (Storage.overwrite buggyOut (Text.unlines (kept.map Prod.fst)))
  Work.attempt .flushFile correctOut
    (Storage.overwrite correctOut (Text.unlines (kept.map Prod.snd)))
  return ⟨kept.length, buggyLines.length - kept.length⟩

/-- Filters pairs of files into a directory. -/
def filterPairs (out : String) (maxLength : Nat) :
    List FilePair → Work m (List (FilePair × FilterStats))
  | [] => return []
  | p :: ps => do
    match p.buggy, p.correct with
    | some buggy, some correct =>
      let stats ← filterPair buggy correct out maxLength
      return (p, stats) :: (← filterPairs out maxLength ps)
    | _, _ => filterPairs out maxLength ps

/-- Filters the pairs of files of a directory into another one, which is made if it is missing. -/
def filterDirectory (directory out : String) (maxLength : Nat) :
    Work m (List (FilePair × FilterStats)) := do
  Work.attempt .createDirectory out (Storage.makeDirectories out)
  filterPairs out maxLength (← findPairs directory)

end Corpus

end RepairCorpus
