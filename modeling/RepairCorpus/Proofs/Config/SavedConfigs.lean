import RepairCorpus.Config.File
import RepairCorpus.Proofs.Files.WrittenFiles
import RepairCorpus.Proofs.Toml.WrittenDocuments

/-!
# Configurations that are saved and loaded

A configuration is saved with every setting written out, also those that are as they would be by default.  So none
of the defaults can come back in place of what was saved, and a table of placeholders without rows is still a
table.  Texts of placeholders may have any characters.

How a setting is put in writing is up to the notations.  They need only be faithful to tables of the form that a
configuration has, three deep: the document, its sections, and the placeholders.  The rows may come back in any
order, and reading a draft does not depend on it.

* `Writable`: the numbers of a configuration are no greater than those of TOML.
* `plain_setting`: the setting of such a configuration is a plain table.
* `exists_toToml?`: **a configuration is read back from its text**.
* `saved_config_loads_back`: **a saved configuration loads back unchanged**.
-/

namespace RepairCorpus.Config

open Files (Directory)
open Files.Directory (Rewritten)
open PlaceholderMap (Ascending ascending_toNames kindsByName mem_toNames_iff)
open Toml (Bare)

/-! ## The setting of a configuration -/

/-- No name of a kind needs quotes. -/
theorem bare_name (k : Kind) : Bare k.name := by
  have hall : ∀ k ∈ Kind.all, Bare k.name := by decide +kernel
  exact hall k k.mem_all

/-- TOML has all numbers of a configuration. -/
def Writable (c : Config) : Prop := ∀ n ∈ c.numbers, n < UInt64.size / 2

section Settings

variable {c : Config}

theorem plain_vocabularySetting (h : c.Writable) : Plain 2 c.vocabularySetting := by
  refine .table (List.nodup_singleton _) ?_ ?_
  · exact List.forall_mem_singleton.mpr (by decide : Bare "size")
  · exact List.forall_mem_singleton.mpr (.number (h _ (by simp [numbers])))

theorem plain_placeholders (c : Config) :
    Plain 1 (.table (c.placeholders.toNames.map fun row => (row.1, textSetting row.2))) := by
  refine .table ?_ (fun row hrow => ?_) fun row hrow => ?_
  · rw [List.map_map]
    exact (ascending_toNames c.placeholders).nodup
  · obtain ⟨⟨name, text⟩, hmem, rfl⟩ := List.mem_map.mp hrow
    obtain ⟨k, -, rfl⟩ := mem_toNames_iff.mp hmem
    exact bare_name k
  · obtain ⟨⟨name, text⟩, -, rfl⟩ := List.mem_map.mp hrow
    exact .text text

theorem plain_abstractionSetting (c : Config) : Plain 2 c.abstractionSetting := by
  refine .table (by decide : ["unique_identifiers", "placeholders"].Nodup) ?_ ?_
  · simp only [List.forall_mem_cons]
    exact ⟨by decide, by decide, List.forall_mem_nil _⟩
  · simp only [List.forall_mem_cons]
    exact ⟨.flag c.uniqueIdentifiers, plain_placeholders c, List.forall_mem_nil _⟩

theorem plain_datasetSetting (h : c.Writable) : Plain 2 c.datasetSetting := by
  refine .table (by decide : ["buckets", "folds", "max_length", "nominal_sample_every"].Nodup) ?_ ?_
  · simp only [List.forall_mem_cons]
    exact ⟨by decide, by decide, by decide, by decide, List.forall_mem_nil _⟩
  · simp only [List.forall_mem_cons]
    exact ⟨.number (h _ (by simp [numbers])), .number (h _ (by simp [numbers])), .number (h _ (by simp [numbers])),
      .number (h _ (by simp [numbers])), List.forall_mem_nil _⟩

/-- **The setting of a configuration** is a plain table. -/
theorem plain_setting (h : c.Writable) : Plain 3 c.setting := by
  refine .table (by decide : ["vocabulary", "abstraction", "dataset"].Nodup) ?_ ?_
  · simp only [List.forall_mem_cons]
    exact ⟨by decide, by decide, by decide, List.forall_mem_nil _⟩
  · simp only [List.forall_mem_cons]
    exact ⟨plain_vocabularySetting h, plain_abstractionSetting c, plain_datasetSetting h, List.forall_mem_nil _⟩

/-- A text that is read as the setting of a configuration, in whatever order, is read as the configuration. -/
theorem parse?_of_reordered {lib : Notations} {text : String} {s : Setting} (h : c.Writable)
    (hread : lib.readToml text = some s) (hreordered : Reordered c.setting s) :
    parse? lib .toml text = some (.ok c) := by
  have hfits : ∀ n ∈ c.numbers, n < Scalar.wordBound := fun n hn =>
    Nat.lt_of_lt_of_le (h n hn) (Nat.div_le_self _ 2)
  have hcheck : c.draft.check = .ok c := (Draft.check_eq_ok_iff (ascending_toNames c.placeholders)).mpr rfl
  rw [parse?, Dialect.read?, hread, Option.bind_some, ofSetting?, Draft.ofSetting?_reordered hreordered,
    ofSetting?_setting _ _ hfits, Option.map_some, hcheck]

/-- **A configuration is read back** from its text. -/
theorem exists_toToml? {lib : Notations} (hlib : lib.Faithful 3) (h : c.Writable) :
    ∃ text, c.toToml? lib = some text ∧ parse? lib .toml text = some (.ok c) := by
  obtain ⟨text, s, hwrite, hread, hreordered⟩ := hlib _ (plain_setting h)
  exact ⟨text, hwrite, parse?_of_reordered h hread hreordered⟩

/-- TOML must have all numbers of a configuration for it to be written. -/
theorem toToml?_bundled_of_not_writable (h : ¬ c.Writable) : c.toToml? .bundled = none := by
  obtain ⟨n, hn, hgreat⟩ : ∃ n ∈ c.numbers, UInt64.size / 2 ≤ n := by
    simpa only [Writable, not_forall, Nat.not_lt, exists_prop] using h
  have hsection : ∃ name inner, (name, .table inner) ∈ [("vocabulary", c.vocabularySetting),
      ("abstraction", c.abstractionSetting), ("dataset", c.datasetSetting)] ∧
      ∃ pair, (pair, numberSetting n) ∈ inner := by
    simp only [numbers, List.mem_cons, List.not_mem_nil, or_false] at hn
    rcases hn with rfl | hn
    · exact ⟨"vocabulary", _, .head _, "size", .head _⟩
    · refine ⟨"dataset", _, .tail _ (.tail _ (.head _)), ?_⟩
      rcases hn with rfl | rfl | rfl | rfl
      · exact ⟨"buckets", by simp⟩
      · exact ⟨"folds", by simp⟩
      · exact ⟨"max_length", by simp⟩
      · exact ⟨"nominal_sample_every", by simp⟩
  obtain ⟨name, inner, hinner, pair, hpair⟩ := hsection
  exact Toml.writeDocument?_eq_none hinner hpair hgreat

end Settings

/-! ## Saving and loading -/

section Files

variable {lib : Notations} {c : Config} {path : String} {d d₁ : Directory}

/-- A configuration that TOML can hold is saved where a file can be made, and it is loaded from there. -/
theorem exists_runs_save_load (hlib : lib.Faithful 3) (h : c.Writable)
    (hpath : Dialect.ofExtension (Files.extension? path) = .toml) (hcreate : d.create path = .ok d₁) :
    ∃ l d', d.locate path = .ok l ∧ Work.Runs (save lib c path) d () d' ∧ Rewritten (fun k => k = l) d d' ∧
      Work.Runs (load lib path) d' c d' := by
  obtain ⟨text, htext, hparse⟩ := exists_toToml? hlib h
  obtain ⟨l, d', hl, hwrite, hrewritten, hread⟩ := Work.Runs.exists_writeFile .writeConfig text hcreate
  refine ⟨l, d', hl, ?_, hrewritten, (Work.Runs.attempt_read hread).bind ?_⟩
  · rw [save, htext]
    exact hwrite
  · simp only [hpath, hparse]
    exact Work.Runs.pure c d'

/-- **A saved configuration loads back unchanged**, by any notations that are faithful to plain tables three deep.
Let a draft be accepted as a configuration, with any table of placeholders in which the names ascend, and let a
path have an extension that stands for TOML.  If no number is beyond signed machine words, the configuration is
saved wherever a file can be made, and no other file is touched; loading it from the same path succeeds, with the
configuration that was saved, and this is the draft it was made of, the table of placeholders included.  If there
is no text for the configuration, saving fails and all files are left as they were. -/
theorem saved_config_loads_back (hlib : lib.Faithful 3) {written : Draft} (hrows : Ascending written.placeholders)
    (hcheck : written.check = .ok c) (hpath : Dialect.ofExtension (Files.extension? path) = .toml) (d : Directory) :
    ((∀ n ∈ c.numbers, n ≤ 9223372036854775807) → ∀ d₁, d.create path = .ok d₁ →
      ∃ l d', d.locate path = .ok l ∧ Work.Runs (save lib c path) d () d' ∧ Rewritten (fun k => k = l) d d' ∧
        Work.Runs (load lib path) d' c d') ∧
    c.draft = written ∧
    (c.toToml? lib = none →
      (ExceptT.run (save lib c path : Work (StateM Directory) Unit)).run d = (.error .unwritableConfig, d)) := by
  refine ⟨fun hnumbers d₁ hcreate => ?_, (Draft.check_eq_ok_iff hrows).mp hcheck, fun hnone => ?_⟩
  · have hwritable : c.Writable := fun n hn => Nat.lt_succ_of_le (hnumbers n hn)
    exact exists_runs_save_load hlib hwritable hpath hcreate
  · rw [save, hnone]
    rfl

/-- A draft that hides nothing, though the standard configuration does. -/
def hidingNothing : Draft := { standard.draft with placeholders := [] }

/-- A configuration with more words than TOML has numbers for. -/
def manyWords : Config :=
  { standard with vocabularySize := 9223372036854775808, vocabularySize_pos := by decide }

/-- An empty table of placeholders is loaded as an empty table, and a number that is too great is not saved. -/
theorem saved_config_loads_back_hidingNothing :
    (∃ c d', hidingNothing.check = .ok c ∧ Work.Runs (save .bundled c "pipeline.toml") .empty () d' ∧
      Work.Runs (load .bundled "pipeline.toml") d' c d' ∧
      c.draft.placeholders = [] ∧ standard.draft.placeholders ≠ []) ∧
    manyWords.draft.check = .ok manyWords ∧
      (ExceptT.run (save .bundled manyWords "pipeline.toml" : Work (StateM Directory) Unit)).run .empty
        = (.error .unwritableConfig, .empty) := by
  have hfaithful : Notations.bundled.Faithful 3 := Toml.faithful_bundled (by decide)
  have hpath : Dialect.ofExtension (Files.extension? "pipeline.toml") = .toml := by decide
  refine ⟨?_, ?_⟩
  · obtain ⟨c, hcheck⟩ : ∃ c, hidingNothing.check = .ok c := ⟨_, rfl⟩
    have hnumbers : ∀ n ∈ c.numbers, n ≤ 9223372036854775807 := by
      cases hcheck
      decide
    have hcreate : Directory.create .empty "pipeline.toml"
        = .ok (Directory.put .empty ["pipeline.toml"] (.file .empty)) := by decide
    have hhides : ("FunctionExpression", "@function") ∈ standard.draft.placeholders :=
      mem_toNames_iff.mpr ⟨.functionExpression, rfl, rfl⟩
    have hrows : Ascending hidingNothing.placeholders := List.Pairwise.nil
    obtain ⟨hround, hdraft, -⟩ := saved_config_loads_back hfaithful hrows hcheck hpath .empty
    obtain ⟨l, d', -, hsave, -, hload⟩ := hround hnumbers _ hcreate
    exact ⟨c, d', hcheck, hsave, hload, by rw [hdraft, hidingNothing], List.ne_nil_of_mem hhides⟩
  · have hrows : Ascending manyWords.draft.placeholders := ascending_toNames standard.placeholders
    have hcheck : manyWords.draft.check = .ok manyWords := (Draft.check_eq_ok_iff hrows).mpr rfl
    have hgreat : ¬ manyWords.Writable := fun h => absurd (h 9223372036854775808 (.head _)) (by decide)
    obtain ⟨-, -, hunwritten⟩ := saved_config_loads_back hfaithful hrows hcheck hpath .empty
    exact ⟨hcheck, hunwritten (toToml?_bundled_of_not_writable hgreat)⟩

end Files

end RepairCorpus.Config
