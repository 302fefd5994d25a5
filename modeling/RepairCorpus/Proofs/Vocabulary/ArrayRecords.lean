import RepairCorpus.Proofs.Vocabulary.ArrayMining
import RepairCorpus.Proofs.Vocabulary.TopWords

/-!
# The records of a miner with arrays

A miner with arrays keeps two records that point at each other.  An entry of its heap has the index of a
cell, and the cell has the index of a slot in the heap.  Every swap changes both of two entries, and a word
that takes the place of another one has to undo what was noted for that one.  What holds after any number
of words is stated here without the miner that it mirrors.

* `ArrayMiner.Consistent`: the two records agree, and the heap is in order.
* `ArrayMiner.consistent_addAll`: **the records stay consistent, and the front is a resident of least
  count**.
* `ArrayMiner.counts_addAll`: **the trie counts the words that were read**, each as often as it occurs.
-/

namespace RepairCorpus

/-- The count that is shown of a word. -/
theorem Miner.Exact.seen?_markOf {m : Miner} {words : List String} (hm : m.Exact words) (w : String) :
    (m.trie.markOf w).seen? = if w ≠ "" ∧ w ∈ words then some (words.count w) else none := by
  by_cases hw : w = ""
  · rw [hw, if_neg fun h => h.1 rfl]
    rfl
  · rw [Mark.seen?, hm.counted w hw]
    by_cases hmem : w ∈ words
    · rw [if_neg (List.count_pos_iff.mpr hmem).ne', if_pos ⟨hw, hmem⟩]
    · rw [if_pos (List.count_eq_zero.mpr hmem), if_neg fun h => hmem h.2]

namespace ArrayMiner

variable {t : ArrayMiner} {m : Miner} {spelled : List (List Char)} {words : List String}

/-! ## Entries and cells -/

/-- The heap and the cells of a miner agree, and the heap is in order. -/
structure Consistent (t : ArrayMiner) : Prop where
  /-- There are no more entries than there may be. -/
  room : t.heap.size ≤ t.capacity
  /-- No word has two entries. -/
  nodup : (t.heap.toList.map Entry.word).Nodup
  /-- No entry has a lesser count than its parent. -/
  ordered : ∀ (i : Nat) e f, i ≠ 0 → t.heap[(i - 1) / 2]? = some e → t.heap[i]? = some f →
    e.count ≤ f.count
  /-- The cell of an entry is reached by the letters of its word and by no others, and it has the count
  and the slot of the entry. -/
  cell : ∀ (i : Nat) e, t.heap[i]? = some e → ∃ x : Cell, t.arena.cells[e.cell]? = some x ∧
    (∀ w, t.arena.find w = some (some e.cell) ↔ w = e.word) ∧ x.letter = e.word.toList.getLast? ∧
    x.count = some e.count ∧ x.slot = some i
  /-- All other cells have no slot. -/
  free : ∀ (k : Nat) x, t.arena.cells[k]? = some x → (∀ e ∈ t.heap, e.cell ≠ k) → x.slot = none

namespace Mirrors

theorem heap_eq_some (h : t.Mirrors m spelled) {e : Entry} {i : Nat} (hi : t.heap[i]? = some e) :
    m.heap[i]? = some e.resident := by
  rw [h.getElem?_heap, hi]
  rfl

/-- A cell without an entry has no slot. -/
theorem slot_eq_none (h : t.Mirrors m spelled) (hm : m.Linked) {k : Nat} {x : Cell}
    (hk : t.arena.cells[k]? = some x) (hfree : ∀ e ∈ t.heap, e.cell ≠ k) : x.slot = none := by
  have hlt : k < spelled.length := h.arena.size ▸ (Array.getElem?_eq_some_iff.mp hk).1
  have hword := List.getElem?_eq_getElem hlt
  obtain ⟨y, hy, hstands⟩ := h.arena.cell k _ hword
  cases hk.symm.trans hy
  by_contra hslot
  obtain ⟨i, hi⟩ := Option.ne_none_iff_exists'.mp hslot
  obtain ⟨r, hr, hrword⟩ := hm.placed _ i (hstands.slot.symm.trans hi)
  obtain ⟨e, he, he'⟩ := h.exists_entry (Miner.lt_size_of_getElem? hr)
  cases hr.symm.trans he'
  have hmem := Array.mem_of_getElem? he
  have hcell := (h.entry e hmem).2
  have hletters : e.word.toList = spelled[k] := by
    rw [← String.toList_ofList (l := spelled[k])]
    exact congrArg String.toList hrword
  rw [hletters] at hcell
  exact hfree e hmem (h.arena.index_unique hcell hword)

/-- The records agree if those of the mirrored miner do. -/
theorem consistent (h : t.Mirrors m spelled) (hm : m.Exact words) : t.Consistent := by
  have hlinked := hm.intact.linked
  refine ⟨?_, ?_, fun i e f hi he hf => ?_, fun i e he => ?_, fun k x => h.slot_eq_none hlinked⟩
  · rw [← h.size_heap, h.capacity]
    exact hm.intact.room
  · have hwords : t.heap.toList.map Entry.word = m.residents.map Resident.word := by
      rw [← h.residents_eq, residents, List.map_map]
      rfl
    rw [hwords]
    exact hlinked.nodup_words
  · rw [← h.countAt_eq he, ← h.countAt_eq hf]
    exact hm.intact.ordered _ _ (Miner.isChild_parent hi) (Miner.lt_size_of_getElem? (h.heap_eq_some hf))
  · have hcell := (h.entry e (Array.mem_of_getElem? he)).2
    have hresident := h.heap_eq_some he
    obtain ⟨x, hx, hstands⟩ := h.arena.cell _ _ hcell
    have hmark := hlinked.marked i _ hresident
    rw [String.ofList_toList, show e.word = e.resident.word from rfl, hmark] at hstands
    have hcount : e.count ≠ 0 := by
      obtain ⟨hmem, hcount⟩ := hm.resident (Miner.mem_residents_iff.mpr ⟨i, hresident⟩)
      show e.resident.count ≠ 0
      rw [hcount]
      exact (List.count_pos_iff.mpr (mem_distinctWords.mp hmem).1).ne'
    refine ⟨x, hx, fun w => ?_, hstands.letter, ?_, hstands.slot⟩
    · rw [h.arena.find_eq_iff, hcell, Option.some.injEq, String.toList_inj, eq_comm]
    · rw [hstands.count]
      exact if_neg hcount

end Mirrors

/-- What is known of a miner with arrays that has read some words. -/
theorem exists_mirrors {capacity : Nat} (hcapacity : 1 ≤ capacity) (words : List String) :
    ∃ t m spelled, addAll ⟨capacity, .empty, #[]⟩ words = some t ∧ t.Mirrors m spelled ∧
      m.Exact words ∧ m.capacity = capacity := by
  have hempty := Miner.intact_of_no_words hcapacity
  obtain ⟨t, spelled, hadd, h⟩ := (mirrors_of_no_words capacity).addAll hempty words
  exact ⟨t, _, spelled, hadd, h, (Miner.exact_of_no_words hcapacity).addAll words,
    hempty.capacity_addAll words⟩

/-- **The records stay consistent, and the front is a resident of least count.**  This is so for every
capacity after any words.  There is a result, so no index was out of range. -/
theorem consistent_addAll {capacity : Nat} (hcapacity : 1 ≤ capacity) :
    ∃ start, new capacity = .ok start ∧ ∀ words : List String, ∃ t, start.addAll words = some t ∧
      t.capacity = capacity ∧ t.Consistent ∧ (t.least? = none ↔ t.residents = []) ∧
      ∀ r, t.least? = some r → r ∈ t.residents ∧ ∀ s ∈ t.residents, r.count ≤ s.count := by
  refine ⟨_, if_neg (Nat.one_le_iff_ne_zero.mp hcapacity), fun words => ?_⟩
  obtain ⟨t, m, spelled, hadd, h, hm, hcap⟩ := exists_mirrors hcapacity words
  have hleast : t.least? = m.heap[0]? := (h.getElem?_heap 0).symm
  refine ⟨t, hadd, h.capacity.trans hcap, h.consistent hm, ?_, fun r hr => ?_⟩
  · rw [hleast, h.residents_eq, Array.getElem?_eq_none_iff, Nat.le_zero, Miner.residents,
      Array.toList_eq_nil_iff, Array.size_eq_zero_iff]
  · rw [hleast] at hr
    rw [h.residents_eq]
    refine ⟨Miner.mem_residents_iff.mpr ⟨0, hr⟩, fun s hs => ?_⟩
    rw [← Miner.countAt_of_getElem? hr]
    exact hm.intact.least_le hs

/-- Two places for four words, of which one is the beginning of another; two of them have to leave. -/
theorem consistent_addAll_two_places : 1 ≤ 2 ∧ ∃ start, new 2 = .ok start ∧
    ∃ t, start.addAll ["a", "ab", "b", "", "b", "c", "c", "c"] = some t ∧ t.Consistent := by
  obtain ⟨start, hstart, hall⟩ := consistent_addAll (show 1 ≤ 2 by decide)
  obtain ⟨t, hadd, -, hconsistent, -⟩ := hall ["a", "ab", "b", "", "b", "c", "c", "c"]
  exact ⟨by decide, start, hstart, t, hadd, hconsistent⟩

/-! ## Counts -/

/-- **The trie counts the words that were read**, each as often as it occurs.  This is so for every capacity
after any words, whether they are residents or not.  A word that was not read has no count, not even if a
word that was read begins with it, and neither has the empty word.  The list of all counts has each word
once, in strictly ascending order, and is as long as the number of different words. -/
theorem counts_addAll {capacity : Nat} (hcapacity : 1 ≤ capacity) :
    ∃ start, new capacity = .ok start ∧ ∀ words : List String, ∃ t, start.addAll words = some t ∧
      (∀ w, t.count? w = some (if w ≠ "" ∧ w ∈ words then some (words.count w) else none)) ∧
      ∃ seen, t.counts = some seen ∧ (seen.Pairwise fun p q => p.1 < q.1) ∧
        (∀ w n, (w, n) ∈ seen ↔ w ≠ "" ∧ w ∈ words ∧ n = words.count w) ∧ t.distinct = seen.length := by
  refine ⟨_, if_neg (Nat.one_le_iff_ne_zero.mp hcapacity), fun words => ?_⟩
  obtain ⟨t, m, spelled, hadd, h, hm, -⟩ := exists_mirrors hcapacity words
  have hlisting := h.sorted.listing_counts
  refine ⟨t, hadd, fun w => ?_, m.counts, h.counts_eq, hlisting.ascending, fun w n => ?_, ?_⟩
  · rw [h.count?_eq, hm.seen?_markOf]
  · rw [Miner.counts, hlisting.mem_iff, String.ofList_toList, hm.seen?_markOf,
      Option.ite_none_right_eq_some, Option.some.injEq, and_iff_right List.nil_prefix, and_assoc,
      eq_comm (a := n)]
  · rw [h.distinct_eq, Miner.distinct, Miner.counts, Trie.length_counts]

/-- A word is counted apart from its beginning, and the word between them, which was not read, is not
counted at all. -/
theorem counts_addAll_beginnings : 1 ≤ 1 ∧ ∃ start, new 1 = .ok start ∧
    ∃ t, start.addAll ["abc", "a", "", "abc"] = some t ∧ t.count? "abc" = some (some 2) ∧
      t.count? "ab" = some none ∧ t.count? "" = some none ∧ ("a", 1) ∈ t.counts.getD [] := by
  obtain ⟨start, hstart, hall⟩ := counts_addAll (show 1 ≤ 1 by decide)
  obtain ⟨t, hadd, hcount, seen, hseen, -, hmem, -⟩ := hall ["abc", "a", "", "abc"]
  refine ⟨by decide, start, hstart, t, hadd, (hcount _).trans (by decide), (hcount _).trans (by decide),
    (hcount _).trans (by decide), ?_⟩
  rw [hseen]
  exact (hmem "a" 1).mpr (by decide)

end ArrayMiner

end RepairCorpus
