import RepairCorpus.Proofs.Vocabulary.HeapOrder
import RepairCorpus.Proofs.Vocabulary.Marks

/-!
# Residents and their marks

A miner keeps two records of its residents: the heap, and the slots noted in the trie.  They are
`Linked` when each entry of the heap has its slot and its count in the mark of its word, and each
noted slot has an entry for the word.  It follows that no word stands in the heap twice.

Only two things happen to linked records.  A sift rearranges the heap by swaps, and reading a word
puts it into a slot, in place of itself, of nobody or of the least frequent resident.

* `Miner.Linked`: the two records agree.
* `Miner.Rearranged`: what swaps leave alone, with `Linked.rearranged_siftUp` and
  `Linked.rearranged_siftDown`.
* `Miner.Put`: an entry into a slot, with `Linked.put`.
-/

namespace RepairCorpus.Miner

variable {m m' m'' : Miner}

/-! ## Linked records -/

/-- The heap and the slots noted in the trie agree. -/
structure Linked (m : Miner) : Prop where
  sorted : m.trie.Sorted
  marked : ∀ i r, m.heap[i]? = some r → m.trie.markOf r.word = ⟨r.count, some i⟩
  placed : ∀ w i, (m.trie.markOf w).slot = some i → ∃ r, m.heap[i]? = some r ∧ r.word = w

/-- The empty word is no resident. -/
theorem Linked.word_ne_empty (h : m.Linked) {i : Nat} {r : Resident} (hi : m.heap[i]? = some r) :
    r.word ≠ "" := by
  intro hr
  have hmark := h.marked i r hi
  rw [hr, Trie.markOf_empty_word] at hmark
  exact Option.some_ne_none i (congrArg Mark.slot hmark).symm

/-- A word has one slot at most. -/
theorem Linked.slot_unique (h : m.Linked) {i j : Nat} {r s : Resident} (hi : m.heap[i]? = some r)
    (hj : m.heap[j]? = some s) (hword : r.word = s.word) : i = j := by
  have hmark := h.marked i r hi
  rw [hword, h.marked j s hj] at hmark
  exact (Option.some_inj.mp (congrArg Mark.slot hmark)).symm

/-- The slot of a resident is noted for its word alone. -/
theorem Linked.slot_eq_some_iff (h : m.Linked) {i : Nat} {r : Resident} (hi : m.heap[i]? = some r)
    {w : String} : (m.trie.markOf w).slot = some i ↔ w = r.word := by
  constructor
  · intro hw
    obtain ⟨s, hs, rfl⟩ := h.placed w i hw
    rw [Option.some_inj.mp (hs.symm.trans hi)]
  · rintro rfl
    rw [h.marked i r hi]

theorem markOf_note (h : m.trie.Sorted) {word : String} (hword : word ≠ "") (slot : Option Nat)
    (w : String) : (m.note word slot).trie.markOf w
      = if w = word then ⟨(m.trie.markOf word).count, slot⟩ else m.trie.markOf w :=
  Trie.markOf_modify h hword _ w

theorem sorted_note (h : m.trie.Sorted) (word : String) (slot : Option Nat) :
    (m.note word slot).trie.Sorted := h.modify _ word

/-- No slot is noted beyond the heap. -/
theorem Linked.slot_lt_size (h : m.Linked) {w : String} {i : Nat}
    (hw : (m.trie.markOf w).slot = some i) : i < m.heap.size := by
  obtain ⟨r, hi, -⟩ := h.placed w i hw
  exact lt_size_of_getElem? hi

/-- The words without a slot are those that no resident has. -/
theorem Linked.slot_eq_none_iff (h : m.Linked) {w : String} :
    (m.trie.markOf w).slot = none ↔ ∀ r ∈ m.residents, r.word ≠ w := by
  constructor
  · rintro hw r hr rfl
    obtain ⟨i, hi⟩ := mem_residents_iff.mp hr
    rw [h.marked i r hi] at hw
    exact Option.some_ne_none i hw
  · intro hw
    by_contra hslot
    obtain ⟨i, hi⟩ := Option.ne_none_iff_exists'.mp hslot
    obtain ⟨r, hr, rfl⟩ := h.placed w i hi
    exact hw r (mem_residents_iff.mpr ⟨i, hr⟩) rfl

/-! ## Swaps -/

section Swap

variable {i j : Nat} {r s : Resident}

theorem swap_eq (hi : m.heap[i]? = some r) (hj : m.heap[j]? = some s) : m.swap i j
    = (({ m with heap := m.heap.swapIfInBounds i j }).note s.word (some i)).note r.word (some j) := by
  have hslot := getElem?_heap_swap (lt_size_of_getElem? hi) (lt_size_of_getElem? hj)
  have hi' : (m.heap.swapIfInBounds i j)[i]? = some s := by
    rw [← heap_swap, hslot, if_pos rfl, hj]
  have hj' : (m.heap.swapIfInBounds i j)[j]? = some r := by
    rw [← heap_swap, hslot]
    split
    · next hji => rw [hji, hi]
    · rw [if_pos rfl, hi]
  rw [swap, noteSlot, noteSlot]
  simp only [hi', heap_note, hj']

theorem Linked.markOf_swap (h : m.Linked) (hi : m.heap[i]? = some r) (hj : m.heap[j]? = some s)
    (w : String) : (m.swap i j).trie.markOf w = if w = r.word then ⟨r.count, some j⟩
      else if w = s.word then ⟨s.count, some i⟩ else m.trie.markOf w := by
  have hr := h.word_ne_empty hi
  have hs := h.word_ne_empty hj
  have hmr := h.marked i r hi
  have hms := h.marked j s hj
  have hsorted : ({ m with heap := m.heap.swapIfInBounds i j } : Miner).trie.Sorted := h.sorted
  rw [swap_eq hi hj, markOf_note (sorted_note hsorted _ _) hr, markOf_note hsorted hs,
    markOf_note hsorted hs]
  by_cases hw : w = r.word
  · rw [if_pos hw, if_pos hw]
    split
    · next hrs => rw [← hrs, hmr]
    · rw [hmr]
  · rw [if_neg hw, if_neg hw, hms]

end Swap

/-- What swaps leave alone: the capacity, the residents in whatever order and the counts of all
words.  The records still agree. -/
structure Rearranged (m m' : Miner) : Prop where
  linked : m'.Linked
  capacity : m'.capacity = m.capacity
  residents : m'.residents.Perm m.residents
  counts : ∀ w, (m'.trie.markOf w).count = (m.trie.markOf w).count

theorem Linked.rearranged_refl (h : m.Linked) : Rearranged m m :=
  ⟨h, rfl, List.Perm.refl _, fun _ => rfl⟩

theorem Rearranged.trans (h : Rearranged m m') (h' : Rearranged m' m'') : Rearranged m m'' :=
  ⟨h'.linked, h'.capacity.trans h.capacity, h'.residents.trans h.residents,
    fun w => (h'.counts w).trans (h.counts w)⟩

theorem Rearranged.size (h : Rearranged m m') : m'.heap.size = m.heap.size := h.residents.length_eq

theorem Rearranged.slot_eq_none_iff (h : Rearranged m m') (hm : m.Linked) {w : String} :
    (m'.trie.markOf w).slot = none ↔ (m.trie.markOf w).slot = none := by
  rw [h.linked.slot_eq_none_iff, hm.slot_eq_none_iff]
  exact forall_congr' fun r => by rw [h.residents.mem_iff]

theorem Linked.swap (h : m.Linked) {i j : Nat} {r s : Resident} (hi : m.heap[i]? = some r)
    (hj : m.heap[j]? = some s) (hij : i ≠ j) : (m.swap i j).Linked := by
  have hslot := getElem?_heap_swap (lt_size_of_getElem? hi) (lt_size_of_getElem? hj)
  have hmark := h.markOf_swap hi hj
  have hsr : s.word ≠ r.word := fun hw => hij (h.slot_unique hj hi hw).symm
  refine ⟨?_, fun k x hk => ?_, fun w k hw => ?_⟩
  · rw [swap_eq hi hj]
    exact sorted_note (sorted_note h.sorted _ _) _ _
  · rw [hslot] at hk
    rw [hmark]
    by_cases hki : k = i
    · rw [if_pos hki, hj] at hk
      obtain rfl := Option.some_inj.mp hk
      rw [if_neg hsr, if_pos rfl, hki]
    · by_cases hkj : k = j
      · rw [if_neg hki, if_pos hkj, hi] at hk
        obtain rfl := Option.some_inj.mp hk
        rw [if_pos rfl, hkj]
      · rw [if_neg hki, if_neg hkj] at hk
        rw [if_neg fun hw => hki (h.slot_unique hk hi hw),
          if_neg fun hw => hkj (h.slot_unique hk hj hw), h.marked k x hk]
  · rw [hmark] at hw
    rw [hslot]
    by_cases hwr : w = r.word
    · rw [if_pos hwr] at hw
      obtain rfl := Option.some_inj.mp hw
      rw [if_neg hij.symm, if_pos rfl]
      exact ⟨r, hi, hwr.symm⟩
    · by_cases hws : w = s.word
      · rw [if_neg hwr, if_pos hws] at hw
        obtain rfl := Option.some_inj.mp hw
        rw [if_pos rfl]
        exact ⟨s, hj, hws.symm⟩
      · rw [if_neg hwr, if_neg hws] at hw
        obtain ⟨x, hk, rfl⟩ := h.placed w k hw
        have hki : k ≠ i := by
          rintro rfl
          exact hwr (congrArg Resident.word (Option.some_inj.mp (hk.symm.trans hi)))
        have hkj : k ≠ j := by
          rintro rfl
          exact hws (congrArg Resident.word (Option.some_inj.mp (hk.symm.trans hj)))
        rw [if_neg hki, if_neg hkj]
        exact ⟨x, hk, rfl⟩

/-- A swap of two slots rearranges. -/
theorem Linked.rearranged_swap (h : m.Linked) {i j : Nat} (hi : i < m.heap.size)
    (hj : j < m.heap.size) (hij : i ≠ j) : Rearranged m (m.swap i j) := by
  have hgi := Array.getElem?_eq_getElem hi
  have hgj := Array.getElem?_eq_getElem hj
  refine ⟨h.swap hgi hgj hij, ?_, ?_, fun w => ?_⟩
  · rw [swap_eq hgi hgj]
    rfl
  · rw [residents, residents, heap_swap, Array.swapIfInBounds_def, dif_pos hi, dif_pos hj]
    exact (Array.swap_perm hi hj).toList
  · rw [h.markOf_swap hgi hgj]
    split
    · next hw => rw [hw, h.marked i _ hgi]
    · split
      · next hw => rw [hw, h.marked j _ hgj]
      · rfl

/-- Sifting up rearranges. -/
theorem Linked.rearranged_siftUp (h : m.Linked) {i : Nat} (hi : i < m.heap.size) :
    Rearranged m (m.siftUp i) := by
  induction m, i using siftUp.induct with
  | case1 m =>
    rw [siftUp_zero]
    exact h.rearranged_refl
  | case2 m i hi0 parent hle =>
    rw [siftUp_of_le hle]
    exact h.rearranged_refl
  | case3 m i hi0 parent hle ih =>
    have hparent : parent < i := (isChild_parent hi0).lt
    have hswap := h.rearranged_swap hi (hparent.trans hi) hparent.ne'
    rw [siftUp_of_not_le hi0 hle]
    refine hswap.trans (ih hswap.linked ?_)
    rw [size_heap_swap]
    exact hparent.trans hi

/-- Sifting down rearranges. -/
theorem Linked.rearranged_siftDown (h : m.Linked) (i : Nat) : Rearranged m (m.siftDown i) := by
  induction m, i using siftDown.induct with
  | case1 m i hsize =>
    rw [siftDown_of_size_le hsize]
    exact h.rearranged_refl
  | case2 m i hsize child hle =>
    rw [siftDown_of_le hle]
    exact h.rearranged_refl
  | case3 m i hsize child hle ih =>
    have hchild : i < child := m.lt_lesserChild i
    have hsize' : child < m.heap.size := lesserChild_lt hsize
    have hswap := h.rearranged_swap (hchild.trans hsize') hsize' hchild.ne
    rw [siftDown_of_not_le hsize hle]
    exact hswap.trans (ih hswap.linked)

/-! ## Entries -/

/-- The state after a resident has come into a slot, in place of whoever stood there. -/
structure Put (m m' : Miner) (i : Nat) (r : Resident) : Prop where
  capacity : m'.capacity = m.capacity
  sorted : m'.trie.Sorted
  here : m'.heap[i]? = some r
  elsewhere : ∀ k, k ≠ i → m'.heap[k]? = m.heap[k]?
  mark : m'.trie.markOf r.word = ⟨r.count, some i⟩
  marks : ∀ w, w ≠ r.word → m'.trie.markOf w =
    if (m.trie.markOf w).slot = some i then ⟨(m.trie.markOf w).count, none⟩ else m.trie.markOf w

namespace Put

variable {i : Nat} {r : Resident}

theorem lt_size (h : Put m m' i r) : i < m'.heap.size := lt_size_of_getElem? h.here

theorem countAt_eq (h : Put m m' i r) : m'.countAt i = r.count := countAt_of_getElem? h.here

theorem lt_size_iff (h : Put m m' i r) (k : Nat) : k < m'.heap.size ↔ k = i ∨ k < m.heap.size := by
  by_cases hk : k = i
  · exact iff_of_true (hk ▸ h.lt_size) (Or.inl hk)
  · rw [lt_size_iff_of_ne h.elsewhere hk]
    exact (or_iff_right hk).symm

/-- An entry in front of the back leaves the number of residents alone. -/
theorem size (h : Put m m' i r) (hi : i < m.heap.size) : m'.heap.size = m.heap.size := by
  have hiff : ∀ k, k < m'.heap.size ↔ k < m.heap.size := fun k =>
    (h.lt_size_iff k).trans (or_iff_right_of_imp fun hk => hk ▸ hi)
  exact le_antisymm (not_lt.mp fun hlt => lt_irrefl _ ((hiff _).mp hlt))
    (not_lt.mp fun hlt => lt_irrefl _ ((hiff _).mpr hlt))

/-- Whoever stands in the heap now came just now or stood there before. -/
theorem mem_residents (h : Put m m' i r) {x : Resident} (hx : x ∈ m'.residents) :
    x = r ∨ x ∈ m.residents := by
  obtain ⟨k, hk⟩ := mem_residents_iff.mp hx
  by_cases hki : k = i
  · subst hki
    exact Or.inl (Option.some_inj.mp (hk.symm.trans h.here))
  · rw [h.elsewhere k hki] at hk
    exact Or.inr (mem_residents_iff.mpr ⟨k, hk⟩)

theorem count_markOf (h : Put m m' i r) (w : String) : (m'.trie.markOf w).count
    = if w = r.word then r.count else (m.trie.markOf w).count := by
  by_cases hw : w = r.word
  · rw [if_pos hw, hw, h.mark]
  · rw [if_neg hw, h.marks w hw]
    split
    · rfl
    · rfl

/-- Whoever has no slot now had none before or stood in the slot that was taken. -/
theorem slot_eq_none (h : Put m m' i r) {w : String} (hw : (m'.trie.markOf w).slot = none) :
    w ≠ r.word ∧ ((m.trie.markOf w).slot = none ∨ (m.trie.markOf w).slot = some i) := by
  have hne : w ≠ r.word := by
    rintro rfl
    rw [h.mark] at hw
    exact Option.some_ne_none i hw
  refine ⟨hne, ?_⟩
  by_cases hslot : (m.trie.markOf w).slot = some i
  · exact Or.inr hslot
  · rw [h.marks w hne, if_neg hslot] at hw
    exact Or.inl hw

end Put

/-- The records agree after an entry, unless the word stands in another slot already. -/
theorem Linked.put {i : Nat} {r : Resident} (h : m.Linked) (hput : Put m m' i r)
    (hslot : (m.trie.markOf r.word).slot = none ∨ (m.trie.markOf r.word).slot = some i) :
    m'.Linked := by
  refine ⟨hput.sorted, fun k x hk => ?_, fun w k hw => ?_⟩
  · by_cases hki : k = i
    · subst hki
      obtain rfl := Option.some_inj.mp (hput.here.symm.trans hk)
      exact hput.mark
    · rw [hput.elsewhere k hki] at hk
      have hmark := h.marked k x hk
      have hslot' : (m.trie.markOf x.word).slot ≠ some i := by
        rw [hmark]
        exact fun hk => hki (Option.some_inj.mp hk)
      have hne : x.word ≠ r.word := by
        intro hw
        rw [← hw, hmark] at hslot
        exact hslot.elim (Option.some_ne_none k) fun hk => hki (Option.some_inj.mp hk)
      rw [hput.marks x.word hne, if_neg hslot', hmark]
  · by_cases hne : w = r.word
    · rw [hne, hput.mark] at hw
      obtain rfl := Option.some_inj.mp hw
      exact ⟨r, hput.here, hne.symm⟩
    · rw [hput.marks w hne] at hw
      by_cases hi : (m.trie.markOf w).slot = some i
      · rw [if_pos hi] at hw
        exact absurd hw.symm (Option.some_ne_none k)
      · rw [if_neg hi] at hw
        have hki : k ≠ i := fun hki => hi (hki ▸ hw)
        rw [hput.elsewhere k hki]
        exact h.placed w k hw

end RepairCorpus.Miner
