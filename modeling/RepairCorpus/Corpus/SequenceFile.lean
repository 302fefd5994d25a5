import RepairCorpus.Corpus.Category
import RepairCorpus.Text.Digits
import RepairCorpus.Trouble

/-!
# Names of sequence files

Sequences are kept in files whose names tell the category and the bucket.  There are three roles:
the two sides of pairs go to a file each, and sequences that are no pairs to a third.

The files of pairs are found again by their names.  What stands in front of the word `seq` does not
matter, and the number of the bucket is recognised in the digits of any script, although only one
in ASCII digits can be read.
-/

namespace RepairCorpus

/-- What a sequence file holds. -/
inductive Role where
  | buggy
  | correct
  | single
  deriving DecidableEq, Inhabited

/-- The extension of files with a role. -/
def Role.extension : Role → String
  | .buggy => "buggy"
  | .correct => "correct"
  | .single => "seq"

/-- The path of the sequence file of a category and, if there are buckets, a bucket.  All paths of
a run begin alike. -/
def sequencePath (start : String) (category : Category) (bucket : Option Nat)
    (extension : String) : String :=
  let number := match bucket with
    | some n => Text.ofNat n
    | none => ""
  start ++ "-" ++ category.name ++ number ++ "." ++ extension

/-! ## Finding pairs -/

/-- The categories whose pairs are found again. -/
def pairCategories : List Category := [.repair, .mutant, .nominal]

/-- The name of a file of pairs, taken apart. -/
structure PairName where
  category : Category
  /-- The number of the bucket as it is written. -/
  digits : List Char
  role : Role
  deriving DecidableEq, Inhabited

/-- Cuts a text off the end of some characters. -/
def cutEnd? (tail : String) (cs : List Char) : Option (List Char) :=
  if tail.toList.isSuffixOf cs then some (cs.take (cs.length - tail.length)) else none

/-- Takes the name of a file of pairs apart. -/
def PairName.parse? (name : String) : Option PairName :=
  [Role.buggy, .correct].findSome? fun role =>
    (cutEnd? ("." ++ role.extension) name.toList).bind fun stem =>
      let digits := (stem.reverse.takeWhile Text.isDecimalDigit).reverse
      let front := stem.take (stem.length - digits.length)
      if digits.isEmpty then none
      else
        (pairCategories.find? fun c => (cutEnd? ("seq-" ++ c.name) front).isSome).map fun c =>
          ⟨c, digits, role⟩

/-- The greatest number of a bucket. -/
def bucketBound : Nat := UInt64.size

/-- Reads the number of a bucket behind the number `n`. -/
def bucketFrom (n : Nat) : List Char → Except NumberFault Nat
  | [] => .ok n
  | c :: cs =>
    match Text.digitValue? c with
    | none => .error .foreignDigit
    | some d => if 10 * n + d < bucketBound then bucketFrom (10 * n + d) cs else .error .tooLarge

/-- The bucket that a name tells. -/
def PairName.bucket (p : PairName) : Except NumberFault Nat := bucketFrom 0 p.digits

end RepairCorpus
