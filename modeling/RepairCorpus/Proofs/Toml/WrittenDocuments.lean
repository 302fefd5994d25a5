import RepairCorpus.Proofs.Config.Drafts
import RepairCorpus.Proofs.Config.RowOrder
import RepairCorpus.Proofs.Toml.DocumentLines

/-!
# Documents that are written and read

A document is written table by table, and it is read table by table.  When a table has been read, with all the
tables in it, the document under construction has grown at one place by that table, and everything around it is
as it was.  So the induction goes over the depth of tables, and inside over the rows of one of them.

Pairs come before the tables in a table, wherever they stood, and the order of rows is lost to that extent.

* `Draft.PassesAll`: the tables of a text, one after the other.
* `exists_pairs`: the pairs of a table, in writing.
* `WritesTables`, `writesTables`: a table is read as it was written, at any place.
* `faithful_bundled`: **what is written for a plain table is read back.**
* `writeDocument?_eq_none`: a number that does not fit keeps a document from being written.
-/

namespace RepairCorpus.Toml

open RepairCorpus.Config (Setting Scalar Plain Reordered ReorderedRow Notations number?_ofInt)
open RepairCorpus.Json (keys)
open Draft (Passes passes_blank passes_pairs passes_table)

/-! ## Parts of a text -/

namespace Draft

/-- `PassesAll d parts d'` holds if parts of a text take a document under construction from `d` to `d'`, one after
the other. -/
inductive PassesAll : Draft → List (List Char) → Draft → Prop
  | nil (d : Draft) : PassesAll d [] d
  | cons {d d₁ d₂ : Draft} {part : List Char} {parts : List (List Char)} (first : d.Passes part d₁)
    (others : PassesAll d₁ parts d₂) : PassesAll d (part :: parts) d₂

namespace PassesAll

variable {d d₁ d₂ : Draft} {parts parts' : List (List Char)}

theorem append (h : d.PassesAll parts d₁) (h' : d₁.PassesAll parts' d₂) : d.PassesAll (parts ++ parts') d₂ := by
  induction h with
  | nil => exact h'
  | cons first _ ih => exact .cons first (ih h')

/-- Empty lines between the parts change nothing. -/
theorem intercalate (h : d.PassesAll parts d₁) : d.Passes (['\n'].intercalate parts) d₁ := by
  induction h with
  | nil d => exact .refl d
  | @cons d d₁ d₂ part parts first others ih =>
    cases parts with
    | nil =>
      cases others
      rw [List.intercalate_singleton]
      exact first
    | cons next parts =>
      rw [List.intercalate_cons_cons]
      exact (first.trans (passes_blank d₁)).trans ih

end PassesAll

end Draft

/-! ## Pairs -/

/-- Whether a row is written as a pair. -/
def isPair (row : String × Setting) : Bool :=
  match row.2 with
  | .scalar _ => true
  | _ => false

section Pairs

variable {depth : Nat} {rows : List (String × Setting)}

/-- A plain scalar is read as it is written. -/
theorem exists_writeScalar? {s : Scalar} (h : Plain depth (.scalar s)) :
    ∃ chars, writeScalar? s = some chars ∧ ReadsAs chars (.scalar s) := by
  generalize hs : Setting.scalar s = setting at h
  cases h with
  | table nodup bare plain => cases hs
  | text text =>
    obtain rfl := Setting.scalar.inj hs
    exact ⟨(write text).toList, rfl, readsAs_text text⟩
  | flag b =>
    obtain rfl := Setting.scalar.inj hs
    exact ⟨_, rfl, readsAs_flag b⟩
  | @number _ n bound =>
    obtain rfl := Setting.scalar.inj hs
    have hnumber : (Scalar.ofInt n).number? = some n :=
      number?_ofInt (Nat.lt_of_lt_of_le bound (Nat.div_le_self _ 2))
    refine ⟨Text.digitsOf n, ?_, readsAs_number bound⟩
    rw [writeScalar?, hnumber]
    exact if_pos bound

/-- **The pairs of a plain table** are written line by line. -/
theorem exists_pairs (hbare : ∀ row ∈ rows, Bare row.1) (hplain : ∀ row ∈ rows, Plain depth row.2) :
    ∃ ps : List Pair, pairLines? rows = some (ps.flatMap Pair.line) ∧
      ps.map (fun p => (p.name, p.value)) = rows.filter isPair := by
  induction rows with
  | nil => exact ⟨[], rfl, rfl⟩
  | cons row rows ih =>
    obtain ⟨name, s⟩ := row
    obtain ⟨hname, hbare⟩ := List.forall_mem_cons.mp hbare
    obtain ⟨hs, hplain⟩ := List.forall_mem_cons.mp hplain
    obtain ⟨ps, hlines, hps⟩ := ih hbare hplain
    cases s with
    | list items => cases hs
    | table inner => exact ⟨ps, hlines, hps⟩
    | scalar value =>
      obtain ⟨chars, hchars, hread⟩ := exists_writeScalar? hs
      refine ⟨⟨name, chars, .scalar value, hname, hread⟩ :: ps, ?_, congrArg (_ :: ·) hps⟩
      rw [pairLines?, hchars, hlines]
      rfl

end Pairs

/-! ## Tables -/

theorem settingsOf_eq_map (rows : Rows) : settingsOf rows = rows.map fun row => (row.1, row.2.toSetting) := by
  induction rows with
  | nil => rw [settingsOf, List.map_nil]
  | cons row rows ih =>
    obtain ⟨name, item⟩ := row
    rw [settingsOf, List.map_cons, ih]

/-- A row and what is read for it. -/
def ReadsRow (row : String × Setting) (item : String × Item) : Prop := ReorderedRow row (item.1, item.2.toSetting)

section Rows

variable {rows : List (String × Setting)} {ps : List Pair} {items : Rows}

/-- **A table with its pairs in front** is the same up to the order of rows. -/
theorem reordered_table (hnodup : (rows.map Prod.fst).Nodup)
    (hps : ps.map (fun p => (p.name, p.value)) = rows.filter isPair)
    (hitems : List.Forall₂ ReadsRow (rows.filter fun row => !isPair row) items) :
    Reordered (.table rows) (.table (settingsOf (ps.map Pair.row ++ items))) := by
  have hscalar : ∀ row ∈ rows.filter isPair, ReorderedRow row row := by
    rintro ⟨name, s⟩ hrow
    cases s with
    | scalar value => exact ⟨rfl, .scalar value⟩
    | list items => exact absurd (List.mem_filter.mp hrow).2 Bool.false_ne_true
    | table inner => exact absurd (List.mem_filter.mp hrow).2 Bool.false_ne_true
  rw [settingsOf_eq_map, List.map_append, ← settingsOf_eq_map, Pair.settingsOf_map_row, hps]
  exact .of_forall₂ hnodup (List.filter_append_perm isPair rows)
    (List.rel_append (List.forall₂_same.mpr hscalar) (List.forall₂_map_right_iff.mpr hitems))

theorem names_pairs (hps : ps.map (fun p => (p.name, p.value)) = rows.filter isPair) :
    ps.map Pair.name = (rows.filter isPair).map Prod.fst := by
  rw [← hps, List.map_map]
  rfl

theorem nodup_pairs (hnodup : (rows.map Prod.fst).Nodup)
    (hps : ps.map (fun p => (p.name, p.value)) = rows.filter isPair) : (ps.map Pair.name).Nodup := by
  rw [names_pairs hps]
  exact hnodup.sublist (List.filter_sublist.map Prod.fst)

/-- No table has the name of a pair. -/
theorem notMem_keys_pairs (hnodup : (rows.map Prod.fst).Nodup)
    (hps : ps.map (fun p => (p.name, p.value)) = rows.filter isPair) :
    ∀ row ∈ rows, isPair row = false → row.1 ∉ keys (ps.map Pair.row) := by
  intro row hrow htable hmem
  have hkeys : keys (ps.map Pair.row) = ps.map Pair.name := List.map_map
  rw [hkeys, names_pairs hps] at hmem
  obtain ⟨pair, hpair, hname⟩ := List.mem_map.mp hmem
  obtain ⟨hmem, hispair⟩ := List.mem_filter.mp hpair
  rw [List.inj_on_of_nodup_map hnodup hmem hrow hname, htable] at hispair
  exact Bool.false_ne_true hispair

end Rows

/-- Tables of a depth are read as they are written, wherever there is room for them. -/
def WritesTables (depth : Nat) : Prop :=
  ∀ {path : List String} {whole : Rows → Rows} {inner : Rows} {opened : List String} {name : String}
    {rows : List (String × Setting)}, Surrounds path whole → (∀ part ∈ path ++ [name], Bare part) →
    path.length + depth < nestingBound → name ∉ keys inner → Plain depth (.table rows) →
    ∃ parts item opened', tables? (path ++ [name]) (.table rows) = some parts ∧
      Draft.PassesAll ⟨whole inner, opened⟩ parts ⟨whole (inner ++ [(name, item)]), opened'⟩ ∧
      Reordered (.table rows) item.toSetting

/-- **The tables in a table** are read as they are written. -/
theorem WritesTables.exists_tablesIn {depth : Nat} (h : WritesTables depth) {path : List String}
    {whole : Rows → Rows} {inner : Rows} {opened : List String} {rows : List (String × Setting)}
    (hframe : Surrounds path whole) (hpath : ∀ part ∈ path, Bare part) (hlength : path.length + depth < nestingBound)
    (hbare : ∀ row ∈ rows, Bare row.1) (hplain : ∀ row ∈ rows, Plain depth row.2)
    (hnodup : (rows.map Prod.fst).Nodup) (hfree : ∀ row ∈ rows, isPair row = false → row.1 ∉ keys inner) :
    ∃ parts items opened', tablesIn? path rows = some parts ∧
      Draft.PassesAll ⟨whole inner, opened⟩ parts ⟨whole (inner ++ items), opened'⟩ ∧
      List.Forall₂ ReadsRow (rows.filter fun row => !isPair row) items := by
  induction rows generalizing inner opened with
  | nil =>
    refine ⟨[], [], opened, rfl, ?_, .nil⟩
    rw [List.append_nil]
    exact .nil _
  | cons row rows ih =>
    obtain ⟨name, s⟩ := row
    obtain ⟨hname, hbares⟩ := List.forall_mem_cons.mp hbare
    obtain ⟨hs, hplains⟩ := List.forall_mem_cons.mp hplain
    obtain ⟨hfirst, hnames⟩ := List.nodup_cons.mp hnodup
    obtain ⟨hnew, hfrees⟩ := List.forall_mem_cons.mp hfree
    cases s with
    | list items => cases hs
    | scalar value =>
      obtain ⟨parts, items, opened', hparts, hpasses, hitems⟩ := ih hbares hplains hnames hfrees
      refine ⟨parts, items, opened', ?_, hpasses, hitems⟩
      rw [tablesIn?, if_pos hname, hparts]
      rfl
    | table below =>
      have hpart : ∀ part ∈ path ++ [name], Bare part :=
        List.forall_mem_append.mpr ⟨hpath, List.forall_mem_singleton.mpr hname⟩
      obtain ⟨parts₁, item, opened₁, hparts₁, hpasses₁, hreordered⟩ := h hframe hpart hlength (hnew rfl) hs
      have hfree' : ∀ row ∈ rows, isPair row = false → row.1 ∉ keys (inner ++ [(name, item)]) := by
        intro row hrow htable hmem
        rw [keys, List.map_append, List.mem_append] at hmem
        rcases hmem with hmem | hmem
        · exact hfrees row hrow htable hmem
        · exact hfirst (List.mem_map.mpr ⟨row, hrow, List.mem_singleton.mp hmem⟩)
      obtain ⟨parts₂, items, opened₂, hparts₂, hpasses₂, hitems⟩ := ih hbares hplains hnames hfree'
      refine ⟨parts₁ ++ parts₂, (name, item) :: items, opened₂, ?_, ?_, .cons ⟨rfl, hreordered⟩ hitems⟩
      · rw [tablesIn?, if_pos hname, hparts₁, hparts₂]
        rfl
      · rw [List.append_assoc] at hpasses₂
        exact hpasses₁.append hpasses₂

/-- **A table** is read as it is written, at any place. -/
theorem writesTables (depth : Nat) : WritesTables depth := by
  induction depth with
  | zero =>
    intro _ _ _ _ _ _ _ _ _ _ hplain
    cases hplain
  | succ depth ih =>
    intro path whole inner opened name rows hframe hpath hlength hname hplain
    cases hplain with
    | table nodup bare plain =>
      obtain ⟨ps, hlines, hps⟩ := exists_pairs bare plain
      have hown : path.length < nestingBound - 1 := by omega
      have hbelow : (path ++ [name]).length + depth < nestingBound := by
        rw [List.length_append, List.length_singleton, Nat.add_assoc, Nat.add_comm 1]
        exact hlength
      have hopen : Passes ⟨whole inner, opened⟩ (headerLine (path ++ [name]) ++ ps.flatMap Pair.line)
          ⟨whole (inner ++ [(name, .table .header (ps.map Pair.row))]), path ++ [name]⟩ :=
        passes_table hframe hname hpath hown ps (nodup_pairs nodup hps)
      obtain ⟨parts, items, opened', hparts, hpasses, hitems⟩ := ih.exists_tablesIn (hframe.below hname .header)
        hpath hbelow bare plain nodup (notMem_keys_pairs nodup hps)
      refine ⟨_ :: parts, .table .header (ps.map Pair.row ++ items), opened', ?_, .cons hopen hpasses, ?_⟩
      · rw [tables?, hlines, hparts]
        rfl
      · rw [Item.toSetting]
        exact reordered_table nodup hps hitems

/-! ## Documents -/

/-- The pairs of a document's own table are a part of its text if there are any. -/
theorem passesAll_document {ps : List Pair} {parts : List (List Char)} {d : Draft}
    (hnodup : (ps.map Pair.name).Nodup) (h : Draft.PassesAll ⟨ps.map Pair.row, []⟩ parts d) :
    Draft.PassesAll ⟨[], []⟩
      (if (ps.flatMap Pair.line).isEmpty then parts else ps.flatMap Pair.line :: parts) d := by
  cases ps with
  | nil => exact h
  | cons p ps =>
    have hline : ((p :: ps).flatMap Pair.line).isEmpty = false := by
      simp [Pair.line, pairLine]
    rw [hline]
    exact .cons (passes_pairs .root (p :: ps) hnodup fun _ _ => List.not_mem_nil) h

/-- **What is written for a plain table is read back**, up to the order of rows. -/
theorem faithful_bundled {depth : Nat} (h : depth ≤ nestingBound) : Notations.bundled.Faithful depth := by
  intro rows hplain
  cases hplain with
  | @table depth _ nodup bare plain =>
    obtain ⟨ps, hlines, hps⟩ := exists_pairs bare plain
    have hlength : ([] : List String).length + depth < nestingBound := (Nat.zero_add depth).symm ▸ h
    obtain ⟨parts, items, opened, hparts, hpasses, hitems⟩ := WritesTables.exists_tablesIn (writesTables depth)
      Surrounds.root (List.forall_mem_nil _) hlength bare plain nodup (notMem_keys_pairs nodup hps)
    have hdocument := (passesAll_document (nodup_pairs nodup hps) hpasses).intercalate
    rw [← String.toList_ofList (l := ['\n'].intercalate _)] at hdocument
    refine ⟨_, _, ?_, readDocument?_of_passes hdocument, reordered_table nodup hps hitems⟩
    show writeDocument? (.table rows) = some _
    rw [writeDocument?, hlines, hparts]
    rfl

/-! ## Documents without a text -/

section Unwritten

variable {path : List String} {name : String} {s : Setting} {value : Scalar} {rows : List (String × Setting)}

theorem pairLines?_eq_none (hmem : (name, .scalar value) ∈ rows) (h : writeScalar? value = none) :
    pairLines? rows = none := by
  induction rows with
  | nil => cases hmem
  | cons row rows ih =>
    rcases List.mem_cons.mp hmem with rfl | hlater
    · rw [pairLines?, h]
      rfl
    · obtain ⟨name', s'⟩ := row
      cases s' with
      | scalar value' =>
        rw [pairLines?, ih hlater]
        cases writeScalar? value' <;> rfl
      | list items => exact ih hlater
      | table inner => exact ih hlater

theorem tablesIn?_eq_none (hmem : (name, s) ∈ rows) (h : tables? (path ++ [name]) s = none) :
    tablesIn? path rows = none := by
  induction rows with
  | nil => cases hmem
  | cons row rows ih =>
    rcases List.mem_cons.mp hmem with rfl | hmem
    · rw [tablesIn?, h]
      exact ite_self none
    · rw [tablesIn?, ih hmem]
      cases tables? (path ++ [row.1]) row.2 <;> exact ite_self none

/-- A number that does not fit into a signed machine word is not written. -/
theorem writeScalar?_ofInt_eq_none {n : Nat} (h : UInt64.size / 2 ≤ n) : writeScalar? (.ofInt n) = none := by
  by_cases hword : n < Scalar.wordBound
  · rw [writeScalar?, number?_ofInt hword]
    exact if_neg (Nat.not_lt.mpr h)
  · have hno : ¬ ((0 : Int) ≤ n ∧ (n : Int) < Scalar.wordBound) := fun hfits => hword (Int.ofNat_lt.mp hfits.2)
    have hout : (Scalar.ofInt n).number? = none := by
      rw [Scalar.ofInt]
      simp only [if_neg hno]
    rw [writeScalar?, hout]
    rfl

/-- **A document is not written** if a number in one of its tables does not fit. -/
theorem writeDocument?_eq_none {inner : List (String × Setting)} {pair : String} {n : Nat}
    (htable : (name, .table inner) ∈ rows) (hpair : (pair, .scalar (.ofInt n)) ∈ inner) (h : UInt64.size / 2 ≤ n) :
    writeDocument? (.table rows) = none := by
  have hinner : tables? ([] ++ [name]) (.table inner) = none := by
    rw [tables?, pairLines?_eq_none hpair (writeScalar?_ofInt_eq_none h)]
    rfl
  rw [writeDocument?, tablesIn?_eq_none htable hinner]
  cases pairLines? rows <;> rfl

end Unwritten

end RepairCorpus.Toml
