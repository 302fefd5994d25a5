import Mathlib.Data.List.Sort
import RepairCorpus.Abstraction.Naming

/-!
# Tables of placeholders

Outside the library a map of placeholders is a table of names.  A map can be told from its table, and a table
with ascending names from its map: nothing is lost on the way, in either direction.

* `PlaceholderMap.Ascending`: rows whose names ascend, so that no name comes twice.
* `PlaceholderMap.mem_toNames_iff`, `PlaceholderMap.ascending_toNames`: the table of a map.
* `PlaceholderMap.addNames_named`, `PlaceholderMap.addRows_apply`: what adding rows makes of a map.
* `PlaceholderMap.ofNames_eq_ok_iff`: **a table with ascending names is read as the map whose table it is**.
-/

namespace RepairCorpus.PlaceholderMap

/-- Rows with ascending names. -/
def Ascending (rows : List (String × String)) : Prop := rows.Pairwise fun row row' => row.1 < row'.1

/-- No name comes twice. -/
theorem Ascending.nodup {rows : List (String × String)} (h : Ascending rows) : (rows.map Prod.fst).Nodup := by
  rw [List.nodup_iff_pairwise_ne, List.pairwise_map]
  refine h.imp fun {row row'} hlt heq => ?_
  rw [heq] at hlt
  exact String.lt_irrefl _ hlt

/-- A row for a kind, under the name of the kind. -/
def named (row : Kind × String) : String × String := (row.1.name, row.2)

/-- Hides kinds behind the placeholders of rows, one after the other. -/
def addRows (m : PlaceholderMap) (rows : List (Kind × String)) : PlaceholderMap :=
  rows.foldl (fun m row => m.set row.1 row.2) m

/-! ## The table of a map -/

section Tables

variable {m : PlaceholderMap} {kinds : List Kind} {k : Kind} {text : String}

theorem mem_rowsFor_iff : (k, text) ∈ m.rowsFor kinds ↔ k ∈ kinds ∧ m k = some text := by
  rw [rowsFor, List.mem_filterMap]
  constructor
  · rintro ⟨j, hj, hrow⟩
    obtain ⟨text', htext, heq⟩ := Option.map_eq_some_iff.mp hrow
    cases heq
    exact ⟨hj, htext⟩
  · rintro ⟨hk, htext⟩
    exact ⟨k, hk, by rw [htext, Option.map_some]⟩

theorem kindsByName_perm : kindsByName.Perm Kind.all := List.mergeSort_perm _ _

/-- The rows of the table are those of the kinds that are hidden. -/
theorem mem_toNames_iff {row : String × String} :
    row ∈ m.toNames ↔ ∃ k, m k = some row.2 ∧ k.name = row.1 := by
  rw [toNames, List.mem_map]
  constructor
  · rintro ⟨⟨k, text⟩, hmem, rfl⟩
    exact ⟨k, (mem_rowsFor_iff.mp hmem).2, rfl⟩
  · rintro ⟨k, htext, hname⟩
    exact ⟨(k, row.2), mem_rowsFor_iff.mpr ⟨kindsByName_perm.mem_iff.mpr k.mem_all, htext⟩, Prod.ext hname rfl⟩

/-- Sorting different kinds by their names leaves the names ascending. -/
theorem pairwise_mergeSort_name {kinds : List Kind} (h : kinds.Nodup) :
    (kinds.mergeSort fun j k => j.name ≤ k.name).Pairwise fun j k => j.name < k.name := by
  have hle : (kinds.mergeSort fun j k => j.name ≤ k.name).Pairwise fun j k => decide (j.name ≤ k.name) = true :=
    List.pairwise_mergeSort (fun i j k hij hjk => by
      rw [decide_eq_true_eq] at hij hjk ⊢
      exact String.le_trans hij hjk) (fun j k => by
      rw [Bool.or_eq_true, decide_eq_true_eq, decide_eq_true_eq]
      exact String.le_total j.name k.name) kinds
  have hne : (kinds.mergeSort fun j k => j.name ≤ k.name).Nodup := (List.mergeSort_perm _ _).nodup_iff.mpr h
  refine (hle.and hne).imp fun {j k} hjk => ?_
  exact String.not_le.mp fun hkj =>
    hjk.2 (Kind.name_injective (String.le_antisymm (of_decide_eq_true hjk.1) hkj))

/-- **The names of the table ascend.** -/
theorem ascending_toNames (m : PlaceholderMap) : Ascending m.toNames := by
  rw [Ascending, toNames, rowsFor, List.pairwise_map]
  refine List.Pairwise.filterMap _ (fun j k hjk row hrow row' hrow' => ?_) (pairwise_mergeSort_name Kind.nodup_all)
  obtain ⟨text, -, rfl⟩ := Option.map_eq_some_iff.mp hrow
  obtain ⟨text', -, rfl⟩ := Option.map_eq_some_iff.mp hrow'
  exact hjk

end Tables

/-! ## The map of a table -/

section Reading

variable {m m' : PlaceholderMap} {rows : List (Kind × String)} {table : List (String × String)} {k : Kind}
  {text : String}

/-- Rows with the names of kinds are added one by one. -/
theorem addNames_named (m : PlaceholderMap) (rows : List (Kind × String)) :
    m.addNames (rows.map named) = .ok (m.addRows rows) := by
  induction rows generalizing m with
  | nil => rfl
  | cons row rows ih =>
    rw [List.map_cons, named, addNames, Kind.ofName?_name]
    exact ih (m.set row.1 row.2)

/-- A table that can be read has the names of kinds only. -/
theorem exists_named_of_addNames (h : m.addNames table = .ok m') :
    ∃ rows : List (Kind × String), rows.map named = table := by
  induction table generalizing m with
  | nil => exact ⟨[], rfl⟩
  | cons row table ih =>
    obtain ⟨name, text⟩ := row
    rw [addNames] at h
    split at h
    next k hk =>
      obtain ⟨rows, hrows⟩ := ih h
      have hname : k.name = name := by
        have hfound := List.find?_some hk
        exact beq_iff_eq.mp hfound
      exact ⟨(k, text) :: rows, by rw [List.map_cons, hrows, named, hname]⟩
    next => cases h

/-- What a kind is hidden behind once rows for different kinds have been added. -/
theorem addRows_apply (hnodup : (rows.map Prod.fst).Nodup) :
    m.addRows rows k = some text ↔ (k, text) ∈ rows ∨ k ∉ rows.map Prod.fst ∧ m k = some text := by
  rw [addRows]
  induction rows generalizing m with
  | nil => simp
  | cons row rows ih =>
    obtain ⟨j, text'⟩ := row
    obtain ⟨hfirst, hrest⟩ := List.nodup_cons.mp hnodup
    rw [List.foldl_cons, ih hrest, List.mem_cons, List.map_cons, List.mem_cons, set_apply]
    by_cases hk : k = j
    · subst hk
      have hno : (k, text) ∉ rows := fun hmem => hfirst (List.mem_map.mpr ⟨(k, text), hmem, rfl⟩)
      simp [hno, hfirst, eq_comm]
    · simp [hk]

/-- With ascending names the rows are all that is in the map. -/
theorem addRows_empty_apply (h : Ascending (rows.map named)) :
    empty.addRows rows k = some text ↔ (k, text) ∈ rows := by
  have hnodup : (rows.map Prod.fst).Nodup := by
    have hnames := h.nodup
    rw [List.map_map] at hnames
    refine List.Nodup.of_map Kind.name ?_
    rw [List.map_map]
    exact hnames
  rw [addRows_apply hnodup]
  exact or_iff_left fun hempty => Option.some_ne_none text hempty.2.symm

/-- **A table with ascending names** is read as the map whose table it is. -/
theorem ofNames_eq_ok_iff (h : Ascending table) : ofNames table = .ok m ↔ m.toNames = table := by
  constructor
  · intro hread
    obtain ⟨rows, rfl⟩ := exists_named_of_addNames hread
    rw [ofNames, addNames_named] at hread
    cases hread
    refine (ascending_toNames _).eq_of_mem_iff h fun row => ?_
    rw [mem_toNames_iff, List.mem_map]
    constructor
    · rintro ⟨k, htext, hname⟩
      exact ⟨(k, row.2), (addRows_empty_apply h).mp htext, Prod.ext hname rfl⟩
    · rintro ⟨⟨k, text⟩, hmem, rfl⟩
      exact ⟨k, (addRows_empty_apply h).mpr hmem, rfl⟩
  · rintro rfl
    have hread : ofNames m.toNames = .ok (empty.addRows (m.rowsFor kindsByName)) := addNames_named empty _
    rw [hread]
    congr
    funext k
    refine Option.ext fun text => ?_
    rw [addRows_empty_apply h, mem_rowsFor_iff, and_iff_right (kindsByName_perm.mem_iff.mpr k.mem_all)]

end Reading

end RepairCorpus.PlaceholderMap
