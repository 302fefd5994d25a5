import Mathlib.Data.List.Dedup
import Mathlib.Data.List.Sort
import RepairCorpus.Proofs.Vocabulary.Reading

/-!
# The most frequent words

A miner forgets no count, but it only looks at the residents when it decides who stays.  This file
shows that this is enough: at any time the residents are the most frequent of all words read.  What
has to be known of the others is that none has a count above the least count of the residents, and
that there are others only when the heap is full.

* `Miner.Exact`: what is known of a miner and the words it has read.
* `Miner.Exact.add`, `Miner.Exact.addAll`: that stays true.
* `Miner.Exact.counts_ranking`: the counts of the ranking are the greatest.
* `Miner.ranking_is_top`: the same from an empty miner, with all that is promised of the ranking.
-/

namespace RepairCorpus

/-- The different words of a list.  The empty word is none. -/
def distinctWords (words : List String) : List String := (words.filter (· ≠ "")).dedup

theorem mem_distinctWords {words : List String} {w : String} :
    w ∈ distinctWords words ↔ w ∈ words ∧ w ≠ "" := by
  rw [distinctWords, List.mem_dedup, List.mem_filter, decide_eq_true_eq]

theorem nodup_distinctWords (words : List String) : (distinctWords words).Nodup :=
  List.nodup_dedup _

namespace Miner

variable {m m' : Miner} {word : String} {words : List String}

/-! ## What is known of a miner -/

/-- What is known of a miner that has read some words. -/
structure Exact (m : Miner) (words : List String) : Prop where
  intact : m.Intact
  counted : ∀ w, w ≠ "" → (m.trie.markOf w).count = words.count w
  inside : ∀ r ∈ m.residents, r.word ∈ words
  outside : ∀ w ∈ words, w ≠ "" → (m.trie.markOf w).slot = none →
    m.heap.size = m.capacity ∧ words.count w ≤ m.countAt 0

theorem exact_of_no_words {capacity : Nat} (h : 0 < capacity) :
    Exact ⟨capacity, .empty, #[]⟩ [] := by
  refine ⟨intact_of_no_words h, fun w _ => ?_, fun r hr => ?_, fun w hw => ?_⟩
  · show (Trie.empty.markOf w).count = _
    rw [Trie.markOf_empty, List.count_nil]
    rfl
  · exact absurd hr (List.not_mem_nil)
  · exact absurd hw (List.not_mem_nil)

theorem count_concat (words : List String) (word w : String) : (words ++ [word]).count w
    = if w = word then words.count word + 1 else words.count w := by
  rw [List.count_append, List.count_singleton]
  by_cases hw : w = word
  · rw [if_pos hw, hw, beq_self_eq_true, if_pos rfl]
  · rw [if_neg hw, if_neg fun h => hw (beq_iff_eq.mp h).symm, Nat.add_zero]

/-- Another word that is read. -/
theorem Exact.add_of_ne_empty (h : Exact m words) (hword : word ≠ "") :
    Exact (m.add word) (words ++ [word]) := by
  obtain ⟨hreading, hintact⟩ := h.intact.reading hword
  have hgrown : (m.grown word).count = words.count word + 1 :=
    congrArg Nat.succ (h.counted word hword)
  have hcounted : ∀ w, w ≠ "" →
      ((m.add word).trie.markOf w).count = (words ++ [word]).count w := by
    intro w hw
    rw [hreading.count_markOf, count_concat, hgrown, h.counted w hw]
  refine ⟨hintact, hcounted, fun r hr => ?_, fun w hw hne hslot => ?_⟩
  · rcases hreading.mem_residents hr with rfl | hold
    · exact List.mem_append_right words (List.mem_singleton_self word)
    · exact List.mem_append_left [word] (h.inside r hold)
  · -- either way the heap was full before, so that its least count has not fallen since
    obtain ⟨hfull, hle⟩ : m.heap.size = m.capacity ∧ (words ++ [word]).count w ≤ m.countAt 0 := by
      rcases hreading.outsider h.intact hslot with ⟨hother, hbefore⟩ | ⟨hfull, hle⟩
      · have hw' : w ∈ words := (List.mem_append.mp hw).resolve_right fun hlast =>
          hother (List.mem_singleton.mp hlast)
        rw [count_concat, if_neg hother]
        exact h.outside w hw' hne hbefore
      · rw [hcounted w hne] at hle
        exact ⟨hfull, hle⟩
    exact ⟨hreading.full h.intact hfull, hle.trans (hreading.least_le h.intact hfull)⟩

theorem Exact.add (h : Exact m words) (word : String) : Exact (m.add word) (words ++ [word]) := by
  by_cases hword : word = ""
  · subst hword
    rw [add_empty]
    refine ⟨h.intact, fun w hw => ?_, fun r hr => ?_, fun w hw hne hslot => ?_⟩
    · rw [count_concat, if_neg hw]
      exact h.counted w hw
    · exact List.mem_append_left [""] (h.inside r hr)
    · have hw' : w ∈ words := (List.mem_append.mp hw).resolve_right fun hlast =>
        hne (List.mem_singleton.mp hlast)
      rw [count_concat, if_neg hne]
      exact h.outside w hw' hne hslot
  · exact h.add_of_ne_empty hword

/-- Any number of words that are read. -/
theorem Exact.addAll (h : Exact m words) (more : List String) :
    Exact (m.addAll more) (words ++ more) := by
  induction more generalizing m words with
  | nil =>
    rw [List.append_nil]
    exact h
  | cons word more ih =>
    have hstep := ih (h.add word)
    rw [List.append_assoc, List.singleton_append] at hstep
    exact hstep

/-! ## Residents and outsiders -/

theorem Linked.isResident_iff (h : m.Linked) (w : String) :
    m.isResident w = true ↔ w ∈ m.residents.map Resident.word := by
  rw [isResident, ← Option.ne_none_iff_isSome, Ne, h.slot_eq_none_iff, List.mem_map]
  simp only [ne_eq, not_forall, not_not, exists_prop]

/-- No two residents have the same word. -/
theorem Linked.nodup_words (h : m.Linked) : (m.residents.map Resident.word).Nodup := by
  rw [List.Nodup, List.pairwise_map, List.pairwise_iff_getElem]
  intro i j hi hj hij hword
  have hi' : m.heap[i]? = some m.residents[i] := by
    rw [← Array.getElem?_toList]
    exact List.getElem?_eq_getElem hi
  have hj' : m.heap[j]? = some m.residents[j] := by
    rw [← Array.getElem?_toList]
    exact List.getElem?_eq_getElem hj
  exact hij.ne (h.slot_unique hi' hj' hword)

/-- A resident is a word that has been read, and its count is right. -/
theorem Exact.resident (h : Exact m words) {r : Resident} (hr : r ∈ m.residents) :
    r.word ∈ distinctWords words ∧ r.count = words.count r.word := by
  obtain ⟨i, hi⟩ := mem_residents_iff.mp hr
  have hne : r.word ≠ "" := h.intact.linked.word_ne_empty hi
  refine ⟨mem_distinctWords.mpr ⟨h.inside r hr, hne⟩, ?_⟩
  rw [← h.counted r.word hne, h.intact.linked.marked i r hi]

/-- The words read that are no residents. -/
def outsiders (m : Miner) (words : List String) : List String :=
  (distinctWords words).filter fun w => !m.isResident w

theorem Exact.of_mem_outsiders (h : Exact m words) {w : String} (hw : w ∈ m.outsiders words) :
    m.heap.size = m.capacity ∧ words.count w ≤ m.countAt 0 := by
  obtain ⟨hseen, hout⟩ := List.mem_filter.mp hw
  obtain ⟨hmem, hne⟩ := mem_distinctWords.mp hseen
  refine h.outside w hmem hne ?_
  rw [isResident, Bool.not_eq_true', Option.isSome_eq_false_iff, Option.isNone_iff_eq_none] at hout
  exact hout

/-- Every word read is a resident or an outsider. -/
theorem Exact.perm_distinctWords (h : Exact m words) :
    (m.residents.map Resident.word ++ m.outsiders words).Perm (distinctWords words) := by
  have hresidents : (m.residents.map Resident.word).Perm
      ((distinctWords words).filter fun w => m.isResident w) := by
    rw [List.perm_ext_iff_of_nodup h.intact.linked.nodup_words
      ((nodup_distinctWords words).filter _)]
    intro w
    rw [List.mem_filter, h.intact.linked.isResident_iff, List.mem_map]
    refine ⟨fun hw => ⟨?_, hw⟩, fun hw => hw.2⟩
    obtain ⟨r, hr, rfl⟩ := hw
    exact (h.resident hr).1
  exact (hresidents.append_right _).trans (List.filter_append_perm _ _)

/-- There are as many residents as there can be. -/
theorem Exact.length_residents (h : Exact m words) :
    m.residents.length = min m.capacity (distinctWords words).length := by
  have hlength := h.perm_distinctWords.length_eq
  rw [List.length_append, List.length_map] at hlength
  have hsize : m.residents.length = m.heap.size := Array.length_toList
  have hroom := h.intact.room
  cases hout : m.outsiders words with
  | nil =>
    rw [hout, List.length_nil] at hlength
    omega
  | cons w out =>
    have hfull := (h.of_mem_outsiders (hout ▸ List.mem_cons_self)).1
    omega

/-! ## The ranking -/

theorem ranksBefore_iff {r s : Resident} : ranksBefore r s = true ↔
    s.count < r.count ∨ r.count = s.count ∧ r.word ≤ s.word := by
  rw [ranksBefore, Bool.or_eq_true, Bool.and_eq_true, decide_eq_true_eq, decide_eq_true_eq,
    decide_eq_true_eq]

theorem ranksBefore_trans (r s t : Resident) (hrs : ranksBefore r s = true)
    (hst : ranksBefore s t = true) : ranksBefore r t = true := by
  rw [ranksBefore_iff] at *
  rcases hrs with hrs | ⟨hrs, hrs'⟩
  · rcases hst with hst | ⟨hst, -⟩
    · exact Or.inl (hst.trans hrs)
    · exact Or.inl (hst ▸ hrs)
  · rcases hst with hst | ⟨hst, hst'⟩
    · exact Or.inl (hrs ▸ hst)
    · exact Or.inr ⟨hrs.trans hst, String.le_trans hrs' hst'⟩

theorem ranksBefore_total (r s : Resident) : (ranksBefore r s || ranksBefore s r) = true := by
  rw [Bool.or_eq_true, ranksBefore_iff, ranksBefore_iff]
  rcases lt_trichotomy r.count s.count with hlt | heq | hgt
  · exact Or.inr (Or.inl hlt)
  · rcases String.le_total r.word s.word with hle | hle
    · exact Or.inl (Or.inr ⟨heq, hle⟩)
    · exact Or.inr (Or.inr ⟨heq.symm, hle⟩)
  · exact Or.inl (Or.inl hgt)

theorem ranking_perm (m : Miner) : m.ranking.Perm m.residents := List.mergeSort_perm _ _

/-- The ranking is strict: no two residents rank the same. -/
theorem Linked.pairwise_ranking (h : m.Linked) : m.ranking.Pairwise fun r s =>
    s.count < r.count ∨ s.count = r.count ∧ r.word < s.word := by
  have hsorted : m.ranking.Pairwise fun r s => ranksBefore r s = true :=
    List.pairwise_mergeSort ranksBefore_trans ranksBefore_total m.residents
  have hwords : m.ranking.Pairwise fun r s => r.word ≠ s.word :=
    List.pairwise_map.mp ((m.ranking_perm.map Resident.word).nodup_iff.mpr h.nodup_words)
  refine (hsorted.and hwords).imp fun ⟨hrank, hne⟩ => ?_
  rcases ranksBefore_iff.mp hrank with hlt | ⟨heq, hle⟩
  · exact Or.inl hlt
  · refine Or.inr ⟨heq.symm, String.not_le.mp fun hge => hne (String.le_antisymm hle hge)⟩

/-- All counts, the greatest first. -/
def sortedCounts (words : List String) : List Nat :=
  ((distinctWords words).map fun w => words.count w).mergeSort (· ≥ ·)

/-- **The ranking begins the list of all counts**, the greatest first. -/
theorem Exact.counts_ranking (h : Exact m words) :
    m.ranking.map Resident.count = (sortedCounts words).take m.capacity := by
  have hsplit : m.ranking.map Resident.count
      ++ ((m.outsiders words).map fun w => words.count w).mergeSort (· ≥ ·)
      = sortedCounts words := by
    refine List.Perm.eq_of_sortedGE ?_ List.sortedGE_mergeSort ?_
    · rw [List.sortedGE_iff_pairwise, List.pairwise_append]
      refine ⟨?_, List.sortedGE_mergeSort.pairwise, fun a ha b hb => ?_⟩
      · rw [List.pairwise_map]
        exact h.intact.linked.pairwise_ranking.imp fun hrs => hrs.elim le_of_lt fun heq => heq.1.le
      · obtain ⟨r, hr, rfl⟩ := List.mem_map.mp ha
        obtain ⟨w, hw, rfl⟩ := List.mem_map.mp (List.mem_mergeSort.mp hb)
        exact (h.of_mem_outsiders hw).2.trans
          (h.intact.least_le (m.ranking_perm.mem_iff.mp hr))
    · have hcounts : m.residents.map Resident.count
          = (m.residents.map Resident.word).map fun w => words.count w := by
        rw [List.map_map]
        exact List.map_congr_left fun r hr => (h.resident hr).2
      have hall := h.perm_distinctWords.map fun w => words.count w
      rw [List.map_append, ← hcounts] at hall
      exact ((m.ranking_perm.map _).append (List.mergeSort_perm _ _)).trans
        (hall.trans (List.mergeSort_perm _ _).symm)
  have hlength : (m.ranking.map Resident.count).length = m.residents.length := by
    rw [List.length_map, m.ranking_perm.length_eq]
  have hresidents := h.length_residents
  rw [← hsplit]
  cases hout : m.outsiders words with
  | nil =>
    rw [List.map_nil, List.mergeSort_nil, List.append_nil, List.take_of_length_le]
    omega
  | cons w out =>
    have hfull := (h.of_mem_outsiders (hout ▸ List.mem_cons_self)).1
    rw [List.take_left' (hlength.trans hfull)]

/-- All counts are the same in whatever order the words are read. -/
theorem sortedCounts_perm {words' : List String} (h : words'.Perm words) :
    sortedCounts words' = sortedCounts words := by
  refine List.Perm.eq_of_sortedGE List.sortedGE_mergeSort List.sortedGE_mergeSort ?_
  have hdistinct : (distinctWords words').Perm (distinctWords words) := (h.filter _).dedup
  have hcounts : (fun w => words'.count w) = fun w => words.count w :=
    funext fun w => h.count_eq w
  refine (List.mergeSort_perm _ _).trans (List.Perm.trans ?_ (List.mergeSort_perm _ _).symm)
  rw [hcounts]
  exact hdistinct.map _

/-! ## From an empty miner -/

/-- **The residents are the most frequent words**, for every capacity and all words read.  There
are as many residents as fit; each has at least the count of every word read that is none.  The
ranking lists the residents with their counts, the greatest first, and among equal counts by
ascending words.  So its counts are the first of all counts, the greatest first, and they do not
depend on the order in which the words are read. -/
theorem ranking_is_top {capacity : Nat} (hcapacity : 1 ≤ capacity) (words : List String) :
    ∃ start, new capacity = .ok start ∧
      let m := start.addAll words
      m.residents.length = min capacity (distinctWords words).length ∧
      (∀ w, m.isResident w = true ↔ w ∈ m.residents.map Resident.word) ∧
      (∀ r ∈ m.residents, ∀ w ∈ distinctWords words, m.isResident w = false →
        words.count w ≤ r.count) ∧
      m.ranking.Perm m.residents ∧
      (∀ r ∈ m.ranking, r.word ∈ distinctWords words ∧ r.count = words.count r.word) ∧
      m.ranking.Pairwise (fun r s => s.count < r.count ∨ s.count = r.count ∧ r.word < s.word) ∧
      m.ranking.map Resident.count = (sortedCounts words).take capacity ∧
      ∀ words' : List String, words'.Perm words →
        (start.addAll words').ranking.map Resident.count = m.ranking.map Resident.count := by
  have hstart : new capacity = .ok ⟨capacity, .empty, #[]⟩ :=
    if_neg (Nat.one_le_iff_ne_zero.mp hcapacity)
  have hexact : ∀ words, Exact (addAll ⟨capacity, .empty, #[]⟩ words) words := fun words =>
    (exact_of_no_words hcapacity).addAll words
  have hcap : ∀ words, (addAll ⟨capacity, .empty, #[]⟩ words).capacity = capacity := fun words =>
    (intact_of_no_words hcapacity).capacity_addAll words
  have hcounts : ∀ words, (addAll ⟨capacity, .empty, #[]⟩ words).ranking.map Resident.count
      = (sortedCounts words).take capacity := fun words => by
    rw [(hexact words).counts_ranking, hcap]
  have h := hexact words
  refine ⟨_, hstart, ?_, h.intact.linked.isResident_iff, fun r hr w hw hout => ?_,
    ranking_perm _, fun r hr => h.resident ((ranking_perm _).mem_iff.mp hr),
    h.intact.linked.pairwise_ranking, hcounts words, fun words' hperm => ?_⟩
  · rw [h.length_residents, hcap]
  · have hmem : w ∈ (addAll ⟨capacity, .empty, #[]⟩ words).outsiders words :=
      List.mem_filter.mpr ⟨hw, by rw [hout, Bool.not_false]⟩
    exact (h.of_mem_outsiders hmem).2.trans (h.intact.least_le hr)
  · rw [hcounts, hcounts, sortedCounts_perm hperm]

/-- Two places for three words, of which the first has to leave and does not come back. -/
theorem ranking_is_top_two_places : 1 ≤ 2 ∧ ∃ start, new 2 = .ok start ∧
    let m := start.addAll ["a", "b", "c", "c", "c", "c", "b", "b", "", "a"]
    m.residents.length = 2 ∧ m.ranking.map Resident.count = [4, 3] := by
  obtain ⟨start, hstart, hlength, -, -, -, -, -, hcounts, -⟩ :=
    ranking_is_top (show 1 ≤ 2 by decide) ["a", "b", "c", "c", "c", "c", "b", "b", "", "a"]
  have hsorted : sortedCounts ["a", "b", "c", "c", "c", "c", "b", "b", "", "a"] = [4, 3, 2] :=
    List.mergeSort_of_pairwise (l := [4, 3, 2]) (by decide)
  refine ⟨by decide, start, hstart, hlength.trans (by decide), ?_⟩
  rw [hcounts, hsorted]
  rfl

end Miner

end RepairCorpus
