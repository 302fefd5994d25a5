import RepairCorpus.Toml.Document
import RepairCorpus.Toml.Writer
import RepairCorpus.Yaml.Document

/-!
# Notations

Configuration files are read and written by libraries, one for TOML and one for YAML.  What they
do is taken as given: a program works with any `Notations`, and what is to hold of a program may
depend on what holds of them.

* `Notations`: the readers and the writer.
* `Plain`, `Reordered`: settings of texts, truth values and numbers, and when two settings say the same.
* `Notations.Faithful`: what is written for a plain table is read back, in whatever order its rows
  come.
* `Notations.bundled`: the notations of this library.
-/

namespace RepairCorpus.Config

/-- Readers and writers of notations. -/
structure Notations where
  readToml : String → Option Setting
  writeToml : Setting → Option String
  readYaml : String → Option Setting

/-- `Plain depth s` holds if a setting is a text, a truth value, a number of a signed machine word,
or a table of such settings under different names without quotes; tables nest to a depth. -/
inductive Plain : Nat → Setting → Prop
  | text {depth : Nat} (text : String) : Plain depth (.scalar (.ofText text))
  | flag {depth : Nat} (b : Bool) : Plain depth (.scalar (.ofBool b))
  | number {depth n : Nat} (bound : n < UInt64.size / 2) : Plain depth (.scalar (.ofInt n))
  | table {depth : Nat} {rows : List (String × Setting)} (nodup : (rows.map Prod.fst).Nodup)
    (bare : ∀ row ∈ rows, Toml.Bare row.1) (plain : ∀ row ∈ rows, Plain depth row.2) :
    Plain (depth + 1) (.table rows)

/-- `Reordered s s'` holds if two settings are the same up to the order of rows in tables, where
different rows have different names. -/
inductive Reordered : Setting → Setting → Prop
  | scalar (value : Scalar) : Reordered (.scalar value) (.scalar value)
  | table {rows rows' : List (String × Setting)} (nodup : (rows.map Prod.fst).Nodup)
    (names : (rows'.map Prod.fst).Perm (rows.map Prod.fst))
    (values : ∀ name s s', (name, s) ∈ rows → (name, s') ∈ rows' → Reordered s s') :
    Reordered (.table rows) (.table rows')

namespace Notations

/-- What is written for a plain table is read back, up to the order of rows. -/
def Faithful (lib : Notations) (depth : Nat) : Prop :=
  ∀ rows, Plain depth (.table rows) → ∃ text s,
    lib.writeToml (.table rows) = some text ∧ lib.readToml text = some s ∧ Reordered (.table rows) s

/-- The notations of this library. -/
def bundled : Notations where
  readToml := Toml.readDocument?
  writeToml := Toml.writeDocument?
  readYaml := Yaml.readDocument?

end Notations

end RepairCorpus.Config
