import RepairCorpus.Config.Written
import RepairCorpus.Error
import RepairCorpus.Files.Directory

/-!
# Trouble

A command can fail for reasons that lie outside the trees it works on: a file cannot be accessed,
a configuration is wrong, files that belong together do not fit together, or an argument is out of
range.  The reasons are data.

A trouble has a message, which says what could not be done, and in some cases a cause behind it.
The account of a trouble is the message with its cause.
-/

namespace RepairCorpus

open RepairCorpus.Files (Failure)

/-- What was attempted when an access to a file failed. -/
inductive Attempt where
  | readCorpus
  | readVocabulary
  | writeVocabulary
  | readConfig
  | writeConfig
  | createDirectory
  | createFile
  | readFile
  | flushFile
  | listDirectory
  deriving DecidableEq, Inhabited

/-- The wording for an attempt that failed. -/
def Attempt.message (path : String) : Attempt → String
  | .readCorpus => "Failed to read corpus from " ++ path
  | .readVocabulary => "Failed to read vocabulary from " ++ path
  | .writeVocabulary => "Failed to write vocabulary to " ++ path
  | .readConfig => "Failed to read config from " ++ path
  | .writeConfig => "Failed to write config to " ++ path
  | .createDirectory => "Failed to create directory: " ++ path
  | .createFile => "Failed to create " ++ path
  | .readFile => "Failed to read " ++ path
  | .flushFile => "Failed to flush " ++ path
  | .listDirectory => "Failed to list " ++ path

/-- The wording of the cause behind a failed attempt. -/
def Attempt.cause (path : String) (failure : Failure) : Attempt → String
  | .listDirectory => "IO error for operation on " ++ path ++ ": " ++ failure.message
  | _ => failure.message

/-- Why the number in the name of a file is none. -/
inductive NumberFault where
  /-- It has a digit that is not one of the ten ASCII digits. -/
  | foreignDigit
  | tooLarge
  deriving DecidableEq, Inhabited

/-- The wording for a number that is none. -/
def NumberFault.message : NumberFault → String
  | .foreignDigit => "invalid digit found in string"
  | .tooLarge => "number too large to fit in target type"

/-- Why a command failed. -/
inductive Trouble where
  | access (attempt : Attempt) (path : String) (failure : Failure)
  | unreadableConfig (dialect : Config.Dialect) (path : String)
  | unwritableConfig
  | config (fault : Config.Fault)
  /-- A path has no last name that an output file could take over. -/
  | nameless (path : String)
  | unequalLengths (buggy : String) (buggyLines : Nat) (correct : String) (correctLines : Nat)
  | bucketNumber (name : String) (fault : NumberFault)
  | noCorpus (path : String)
  | zeroLimit
  | zeroVocabulary
  | noSequences (path : String)
  | foldRange (buckets : Nat)
  deriving DecidableEq, Inhabited

namespace Trouble

/-- What could not be done. -/
def message : Trouble → String
  | .access attempt path _ => attempt.message path
  | .unreadableConfig dialect path =>
    "Failed to parse " ++ dialect.name ++ " config from " ++ path
  | .unwritableConfig => "Failed to serialize config to TOML"
  | .config fault => fault.message
  | .nameless path => "No file name in " ++ path
  | .unequalLengths buggy buggyLines correct correctLines =>
    "File pairs must have the same number of sequences: " ++ buggy ++ " has "
      ++ Text.ofNat buggyLines ++ ", " ++ correct ++ " has " ++ Text.ofNat correctLines
  | .bucketNumber name _ => "Invalid bucket number in " ++ name
  | .noCorpus path => "File not found: " ++ path
  | .zeroLimit => "--max must be greater than zero"
  | .zeroVocabulary => "Invalid vocabulary size"
  | .noSequences path => "Sequence directory does not exist: " ++ path
  | .foldRange buckets =>
    "Number of folds must be between 1 and " ++ Text.ofNat buckets ++ " buckets"

/-- Why it could not be done, if there is more to say. -/
def cause? : Trouble → Option String
  | .access attempt path failure => some (attempt.cause path failure)
  | .bucketNumber _ fault => some fault.message
  | .zeroVocabulary => some Error.zeroCapacity.message
  | _ => none

/-- The message with its cause. -/
def account (t : Trouble) : String :=
  match t.cause? with
  | none => t.message
  | some cause => t.message ++ ": " ++ cause

end Trouble

end RepairCorpus
