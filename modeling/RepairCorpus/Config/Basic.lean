import RepairCorpus.Abstraction.Naming
import RepairCorpus.Abstraction.Prepare
import RepairCorpus.Config.Draft

/-!
# Configurations

A configuration holds what every command needs to know about mining, abstraction and the data set.
It is made from a draft by checking: every number must be positive, there must not be more folds
than buckets, and placeholders may be given only for kinds that exist.  The first fault is
reported, in the order of the sections.
-/

namespace RepairCorpus

/-- A checked configuration. -/
structure Config where
  /-- The number of words that mining keeps. -/
  vocabularySize : Nat
  uniqueIdentifiers : Bool
  placeholders : PlaceholderMap
  /-- The number of buckets that projects are spread over. -/
  buckets : Nat
  folds : Nat
  /-- The greatest number of tokens of a sequence that is kept. -/
  maxLength : Nat
  /-- Of this many nominal sequences with a change, one is kept. -/
  sampleEvery : Nat
  vocabularySize_pos : 0 < vocabularySize
  buckets_pos : 0 < buckets
  folds_pos : 0 < folds
  folds_le : folds ≤ buckets
  maxLength_pos : 0 < maxLength
  sampleEvery_pos : 0 < sampleEvery

namespace Config

/-- What is wrong with a draft. -/
inductive Fault where
  | zeroVocabulary
  | zeroBuckets
  | foldRange (buckets : Nat)
  | zeroLength
  | zeroSample
  | unknownKind (kind : UnknownKind)
  deriving DecidableEq, Inhabited

/-- The wording of a fault. -/
def Fault.message : Fault → String
  | .zeroVocabulary => "vocabulary.size must be greater than zero"
  | .zeroBuckets => "dataset.buckets must be greater than zero"
  | .foldRange buckets =>
    "dataset.folds must be between 1 and dataset.buckets (" ++ Text.ofNat buckets ++ ")"
  | .zeroLength => "dataset.max_length must be greater than zero"
  | .zeroSample => "dataset.nominal_sample_every must be greater than zero"
  | .unknownKind kind => kind.message

/-- Checks a draft. -/
def Draft.check (d : Draft) : Except Fault Config :=
  if hv : d.vocabularySize = 0 then .error .zeroVocabulary
  else if hb : d.buckets = 0 then .error .zeroBuckets
  else if hf : d.folds = 0 ∨ d.buckets < d.folds then .error (.foldRange d.buckets)
  else if hm : d.maxLength = 0 then .error .zeroLength
  else if hs : d.sampleEvery = 0 then .error .zeroSample
  else
    match PlaceholderMap.ofNames d.placeholders with
    | .error kind => .error (.unknownKind kind)
    | .ok placeholders =>
      .ok
        { vocabularySize := d.vocabularySize
          uniqueIdentifiers := d.uniqueIdentifiers
          placeholders := placeholders
          buckets := d.buckets
          folds := d.folds
          maxLength := d.maxLength
          sampleEvery := d.sampleEvery
          vocabularySize_pos := by omega
          buckets_pos := by omega
          folds_pos := by omega
          folds_le := by omega
          maxLength_pos := by omega
          sampleEvery_pos := by omega }

/-- The configuration of a run that is told nothing. -/
def standard : Config where
  vocabularySize := 10000
  uniqueIdentifiers := true
  placeholders := defaultPlaceholders
  buckets := 10
  folds := 10
  maxLength := 500
  sampleEvery := 5
  vocabularySize_pos := by decide
  buckets_pos := by decide
  folds_pos := by decide
  folds_le := by decide
  maxLength_pos := by decide
  sampleEvery_pos := by decide

/-- A configuration as a draft. -/
def draft (c : Config) : Draft where
  vocabularySize := c.vocabularySize
  uniqueIdentifiers := c.uniqueIdentifiers
  placeholders := c.placeholders.toNames
  buckets := c.buckets
  folds := c.folds
  maxLength := c.maxLength
  sampleEvery := c.sampleEvery

/-- The part of a configuration that abstraction needs. -/
def abstraction (c : Config) : AbstractionSettings := ⟨c.placeholders, c.uniqueIdentifiers⟩

/-- Reads a configuration from a setting, on top of the standard one.  There is no configuration
if the setting does not have the form of one. -/
def ofSetting? (surplus : Bool) (s : Setting) : Option (Except Fault Config) :=
  (Draft.ofSetting? surplus standard.draft s).map Draft.check

end Config

end RepairCorpus
