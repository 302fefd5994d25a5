import RepairCorpus.Text.Digits

/-!
# What a run tells

A run tells its user what it has done, in lines that begin with a sign for how good the news is.
-/

namespace RepairCorpus.Command

/-- What a run has to tell. -/
inductive Notice where
  | savedWords (words trees : Nat) (path : String)
  | wroteSequences (sequences records : Nat)
  | skipped (records pairs : Nat)
  | noVocabulary
  | filtered (kept dropped maxLength files : Nat)
  | fold (number train test : Nat)
  | builtFolds (count : Nat) (out : String)
  deriving DecidableEq, Inhabited

/-- The line of a notice; `elapsed` is the time that the run has taken. -/
def Notice.line (elapsed : String) : Notice → String
  | .savedWords words trees path =>
    "✅ Saved " ++ Text.ofNat words ++ " words from " ++ Text.ofNat trees ++ " trees to " ++ path
      ++ " in " ++ elapsed
  | .wroteSequences sequences records =>
    "✅ Wrote " ++ Text.ofNat sequences ++ " sequences from " ++ Text.ofNat records
      ++ " records in " ++ elapsed
  | .skipped records pairs =>
    "⚠️ Skipped " ++ Text.ofNat records ++ " malformed records and " ++ Text.ofNat pairs
      ++ " failed pairs"
  | .noVocabulary => "ℹ️ No vocabulary given, identifiers and literals stay concrete"
  | .filtered kept dropped maxLength files =>
    "✅ Kept " ++ Text.ofNat kept ++ " pairs, dropped " ++ Text.ofNat dropped ++ " longer than "
      ++ Text.ofNat maxLength ++ " tokens across " ++ Text.ofNat files ++ " files in " ++ elapsed
  | .fold number train test =>
    "ℹ️ fold " ++ Text.ofNat number ++ ": " ++ Text.ofNat train ++ " train, " ++ Text.ofNat test
      ++ " test"
  | .builtFolds count out =>
    "✅ Built " ++ Text.ofNat count ++ " folds in " ++ out ++ " (" ++ elapsed ++ ")"

end RepairCorpus.Command
