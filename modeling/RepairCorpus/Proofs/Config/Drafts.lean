import RepairCorpus.Config.Written
import RepairCorpus.Proofs.Abstraction.PlaceholderTables

/-!
# Drafts and configurations

A draft with ascending placeholders is accepted as at most one configuration, and that configuration is written
as the same draft.  So a draft and what it is accepted as can stand for each other.

A setting with all places filled is read as what it says, whatever draft reading starts from: none of the
defaults is left.

* `Config.Draft.check_eq_ok_iff`: **what a draft is accepted as**.
* `Config.fill_table`: a table with a row for every place is filled in as a list is.
* `Config.textRows_texts`: rows of texts with ascending names are read as they are.
* `Config.fill_vocabulary`, `Config.fill_abstraction`, `Config.fill_dataset`: the sections.
* `Config.ofSetting?_setting`: **a setting with every place filled** is read without the defaults.
-/

namespace RepairCorpus.Config

open PlaceholderMap (Ascending ascending_toNames ofNames_eq_ok_iff)

/-! ## Checking -/

/-- **What a draft is accepted as.** -/
theorem Draft.check_eq_ok_iff {d : Draft} {c : Config} (h : Ascending d.placeholders) :
    d.check = .ok c ↔ c.draft = d := by
  constructor
  · intro hcheck
    rw [Draft.check] at hcheck
    split_ifs at hcheck
    split at hcheck
    next => cases hcheck
    next placeholders hnames =>
      cases hcheck
      have hrows := (ofNames_eq_ok_iff h).mp hnames
      rw [draft, hrows]
  · rintro rfl
    have hnames : PlaceholderMap.ofNames c.draft.placeholders = .ok c.placeholders := (ofNames_eq_ok_iff h).mpr rfl
    have hv : c.draft.vocabularySize ≠ 0 := c.vocabularySize_pos.ne'
    have hb : c.draft.buckets ≠ 0 := c.buckets_pos.ne'
    have hf : ¬ (c.draft.folds = 0 ∨ c.draft.buckets < c.draft.folds) :=
      not_or.mpr ⟨c.folds_pos.ne', Nat.not_lt.mpr c.folds_le⟩
    have hm : c.draft.maxLength ≠ 0 := c.maxLength_pos.ne'
    have hs : c.draft.sampleEvery ≠ 0 := c.sampleEvery_pos.ne'
    rw [Draft.check, dif_neg hv, dif_neg hb, dif_neg hf, dif_neg hm, dif_neg hs, hnames]
    rfl

/-! ## Filling in -/

/-- The rows of a table that come in the order of the places: those in front have been filled already. -/
theorem fillRows_rest (surplus : Bool) (d : Draft) {done rest : List Place} {used : List String}
    {rows : List (String × Setting)} (hnodup : ((done ++ rest).map Place.name).Nodup)
    (hused : ∀ name ∈ used, name ∈ done.map Place.name) (hnames : rows.map Prod.fst = rest.map Place.name) :
    fillRows (done ++ rest) used d rows = fillItems surplus d rest (rows.map Prod.snd) := by
  induction rows generalizing done rest used d with
  | nil =>
    rw [List.map_nil, fillRows]
    cases rest <;> rfl
  | cons row rows ih =>
    obtain ⟨name, s⟩ := row
    cases rest with
    | nil => cases hnames
    | cons p rest =>
      obtain ⟨rfl, hrest⟩ : name = p.name ∧ rows.map Prod.fst = rest.map Place.name := List.cons.inj hnames
      have hsplit : done ++ p :: rest = done ++ [p] ++ rest := by
        rw [List.append_assoc, List.singleton_append]
      have hdone : p.name ∉ done.map Place.name := by
        rw [List.map_append, List.nodup_append] at hnodup
        exact fun hmem => hnodup.2.2 p.name hmem p.name (.head _) rfl
      have hfind : (done ++ p :: rest).find? (fun q => q.name == p.name) = some p := by
        have hnone : done.find? (fun q => q.name == p.name) = none :=
          List.find?_eq_none.mpr fun q hq heq => hdone (List.mem_map.mpr ⟨q, hq, beq_iff_eq.mp heq⟩)
        rw [List.find?_append, hnone, Option.none_or]
        exact List.find?_cons_of_pos (p := fun q : Place => q.name == p.name) (beq_self_eq_true p.name)
      have hfree : used.contains p.name = false := by
        rw [List.contains_eq_mem, decide_eq_false_iff_not]
        exact fun hmem => hdone (hused p.name hmem)
      have hused' : ∀ name ∈ p.name :: used, name ∈ (done ++ [p]).map Place.name := by
        rw [List.map_append]
        exact List.forall_mem_cons.mpr ⟨List.mem_append_right _ (.head _),
          fun name hname => List.mem_append_left _ (hused name hname)⟩
      rw [List.map_cons, fillRows, hfind, fillItems]
      simp only [hfree, Bool.false_eq_true, if_false]
      rw [hsplit] at hnodup ⊢
      exact congrArg _ (funext fun d => ih d hnodup hused' hrest)

/-- **A table with a row for every place**, in the order of the places, is filled in as a list is. -/
theorem fill_table {places : List Place} (hnodup : (places.map Place.name).Nodup) (surplus : Bool) (d : Draft)
    {rows : List (String × Setting)} (hnames : rows.map Prod.fst = places.map Place.name) :
    fill surplus places d (.table rows) = fillItems surplus d places (rows.map Prod.snd) := by
  have hnodup' : (([] ++ places).map Place.name).Nodup := hnodup
  exact fillRows_rest surplus d hnodup' (List.forall_mem_nil _) hnames

section Rows

variable {name text : String} {rows read : List (String × String)}

theorem number?_ofInt {n : Nat} (h : n < Scalar.wordBound) : (Scalar.ofInt n).number? = some n := by
  have hfits : (0 : Int) ≤ n ∧ (n : Int) < Scalar.wordBound := ⟨Int.natCast_nonneg n, Int.ofNat_lt.mpr h⟩
  rw [Scalar.ofInt]
  simp only [if_pos hfits, Int.toNat_natCast]

theorem number?_numberSetting {n : Nat} (h : n < Scalar.wordBound) : (numberSetting n).number? = some n := by
  rw [numberSetting, Setting.number?, number?_ofInt h]

/-- A row with a name above all others comes last. -/
theorem putRow_of_lt (h : ∀ row ∈ rows, row.1 < name) : putRow name text rows = rows ++ [(name, text)] := by
  induction rows with
  | nil => rfl
  | cons row rows ih =>
    obtain ⟨hrow, hrows⟩ := List.forall_mem_cons.mp h
    have hne : name ≠ row.1 := fun heq => String.lt_irrefl _ (heq ▸ hrow)
    have hno : ¬ name < row.1 := fun hlt => String.lt_irrefl _ (String.lt_trans hlt hrow)
    rw [putRow, if_neg hne, if_neg hno, ih hrows, List.cons_append]

/-- Rows of texts with ascending names are read as they are. -/
theorem textRows_texts (h : Ascending (read ++ rows)) :
    textRows read (rows.map fun row => (row.1, textSetting row.2)) = some (read ++ rows) := by
  induction rows generalizing read with
  | nil => rw [List.map_nil, textRows, List.append_nil]
  | cons row rows ih =>
    have hlast : ∀ row' ∈ read, row'.1 < row.1 := fun row' hrow' =>
      (List.pairwise_append.mp h).2.2 row' hrow' row (.head _)
    have hrest : read ++ row :: rows = read ++ [row] ++ rows := by
      rw [List.append_assoc, List.singleton_append]
    rw [hrest] at h ⊢
    rw [List.map_cons, textRows, textSetting, Setting.text?, Scalar.ofText, Option.bind_some, putRow_of_lt hlast]
    exact ih h

end Rows

section Settings

variable {c : Config}

/-- The numbers of a configuration. -/
def numbers (c : Config) : List Nat :=
  [c.vocabularySize, c.buckets, c.folds, c.maxLength, c.sampleEvery]

theorem fill_vocabulary (surplus : Bool) (d : Draft) (h : ∀ n ∈ c.numbers, n < Scalar.wordBound) :
    fill surplus vocabularyPlaces d c.vocabularySetting = some { d with vocabularySize := c.vocabularySize } := by
  have hv := number?_numberSetting (h c.vocabularySize (by simp [numbers]))
  rw [vocabularySetting, fill_table (by decide) surplus d rfl]
  simp only [List.map_cons, List.map_nil, vocabularyPlaces, fillItems, numberPlace, hv, Option.map_some,
    Option.bind_some]

theorem fill_abstraction (c : Config) (surplus : Bool) (d : Draft) :
    fill surplus abstractionPlaces d c.abstractionSetting
      = some { d with uniqueIdentifiers := c.uniqueIdentifiers, placeholders := c.placeholders.toNames } := by
  have hrows : textRows [] (c.placeholders.toNames.map fun row => (row.1, textSetting row.2))
      = some c.placeholders.toNames := textRows_texts (ascending_toNames c.placeholders)
  rw [abstractionSetting, fill_table (by decide) surplus d rfl]
  simp only [List.map_cons, List.map_nil, abstractionPlaces, fillItems, Setting.flag?, Scalar.ofBool, Setting.rows?,
    hrows, Option.map_some, Option.bind_some]

theorem fill_dataset (surplus : Bool) (d : Draft) (h : ∀ n ∈ c.numbers, n < Scalar.wordBound) :
    fill surplus datasetPlaces d c.datasetSetting
      = some { d with
          buckets := c.buckets, folds := c.folds, maxLength := c.maxLength, sampleEvery := c.sampleEvery } := by
  have hb := number?_numberSetting (h c.buckets (by simp [numbers]))
  have hf := number?_numberSetting (h c.folds (by simp [numbers]))
  have hm := number?_numberSetting (h c.maxLength (by simp [numbers]))
  have hs := number?_numberSetting (h c.sampleEvery (by simp [numbers]))
  rw [datasetSetting, fill_table (by decide) surplus d rfl]
  simp only [List.map_cons, List.map_nil, datasetPlaces, fillItems, numberPlace, hb, hf, hm, hs, Option.map_some,
    Option.bind_some]

/-- **A setting with every place filled** is read without the defaults. -/
theorem ofSetting?_setting (surplus : Bool) (start : Draft) (h : ∀ n ∈ c.numbers, n < Scalar.wordBound) :
    Draft.ofSetting? surplus start c.setting = some c.draft := by
  have hnames : ((sections surplus).map Place.name).Nodup :=
    (by decide : ["vocabulary", "abstraction", "dataset"].Nodup)
  rw [Draft.ofSetting?, setting, fill_table hnames surplus start rfl]
  simp only [List.map_cons, List.map_nil, sections, fillItems, fill_vocabulary surplus _ h, fill_abstraction,
    fill_dataset surplus _ h, Option.bind_some]
  rfl

end Settings

end RepairCorpus.Config
