import RepairCorpus.Config.Basic
import RepairCorpus.Config.Notation

/-!
# Configurations in writing

A configuration is read from TOML or YAML and written as TOML.  A file's extension tells the
notation: `yaml` or `yml` in letters of either case, and TOML for everything else.

The written form has all sections in their order, the placeholders as a table of their own with
ascending names.
-/

namespace RepairCorpus.Config

/-- The notation of a configuration file. -/
inductive Dialect where
  | toml
  | yaml
  deriving DecidableEq, Inhabited

namespace Dialect

/-- The name of a notation in messages. -/
def name : Dialect → String
  | .toml => "TOML"
  | .yaml => "YAML"

/-- The notation of files with an extension. -/
def ofExtension (extension : Option String) : Dialect :=
  match extension.map fun e => String.ofList (e.toList.map Char.toLower) with
  | some "yaml" => .yaml
  | some "yml" => .yaml
  | _ => .toml

/-- Reads a text as a setting. -/
def read? (lib : Notations) : Dialect → String → Option Setting
  | .toml, text => lib.readToml text
  | .yaml, text => lib.readYaml text

/-- Whether a list in this notation may be longer than there are places for its items. -/
def allowsSurplus : Dialect → Bool
  | .toml => true
  | .yaml => false

end Dialect

/-- Reads a configuration from a text; there is none if the text does not have the form of one. -/
def parse? (lib : Notations) (dialect : Dialect) (text : String) : Option (Except Fault Config) :=
  (dialect.read? lib text).bind (ofSetting? dialect.allowsSurplus)

/-! ## Writing -/

/-- The setting of a text. -/
def textSetting (text : String) : Setting := .scalar (.ofText text)

/-- The setting of a number. -/
def numberSetting (n : Nat) : Setting := .scalar (.ofInt n)

/-- The setting of the section on mining. -/
def vocabularySetting (c : Config) : Setting := .table [("size", numberSetting c.vocabularySize)]

/-- The setting of the section on abstraction. -/
def abstractionSetting (c : Config) : Setting :=
  .table
    [("unique_identifiers", .scalar (.ofBool c.uniqueIdentifiers)),
      ("placeholders", .table (c.placeholders.toNames.map fun row => (row.1, textSetting row.2)))]

/-- The setting of the section on the data set. -/
def datasetSetting (c : Config) : Setting :=
  .table
    [("buckets", numberSetting c.buckets), ("folds", numberSetting c.folds),
      ("max_length", numberSetting c.maxLength),
      ("nominal_sample_every", numberSetting c.sampleEvery)]

/-- The setting of a configuration, with every place filled. -/
def setting (c : Config) : Setting :=
  .table
    [("vocabulary", c.vocabularySetting), ("abstraction", c.abstractionSetting),
      ("dataset", c.datasetSetting)]

/-- The written form of a configuration, if it has one. -/
def toToml? (lib : Notations) (c : Config) : Option String := lib.writeToml c.setting

end RepairCorpus.Config
