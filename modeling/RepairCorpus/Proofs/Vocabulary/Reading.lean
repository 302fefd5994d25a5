import RepairCorpus.Proofs.Vocabulary.Links

/-!
# Reading a word

What a miner does with a word is one of four things, and this file finds out which: a resident
stays, a new word enters while there is room, it takes the place of the least frequent resident,
or it is passed by.  What is said about a miner elsewhere follows from these four.

* `Miner.Intact`: what holds of a miner between two words.
* `Miner.Reading`: the four things that can happen.
* `Miner.Intact.reading`: one of them does.
* `Miner.Intact.add`, `Miner.Intact.addAll`: a miner stays intact.
-/

namespace RepairCorpus.Miner

variable {m m₁ m' : Miner} {word : String}

/-- What holds of a miner between two words: the records agree, the heap is in order, and it holds
no more residents than it may. -/
structure Intact (m : Miner) : Prop where
  linked : m.Linked
  ordered : m.Ordered
  room : m.heap.size ≤ m.capacity
  positive : 0 < m.capacity

/-- A miner without words is intact. -/
theorem intact_of_no_words {capacity : Nat} (h : 0 < capacity) :
    Intact ⟨capacity, .empty, #[]⟩ := by
  refine ⟨⟨trivial, fun i r hi => ?_, fun w i hw => ?_⟩, fun p k _ hk => ?_, Nat.zero_le _, h⟩
  · exact absurd hi (by rw [Array.getElem?_empty]; exact (Option.some_ne_none r).symm)
  · rw [Trie.markOf_empty] at hw
    exact absurd hw.symm (Option.some_ne_none i)
  · exact absurd hk (Nat.not_lt_zero k)

/-! ## The four readings -/

/-- The resident that a word is or would be with one more occurrence. -/
def grown (m : Miner) (word : String) : Resident := ⟨word, (m.trie.markOf word).count + 1⟩

/-- What reading a word makes of a miner. -/
inductive Reading (m : Miner) (word : String) (m' : Miner) : Prop
  /-- The word is a resident and stays. -/
  | stays (i : Nat) (m₁ : Miner) (slot : (m.trie.markOf word).slot = some i)
      (put : Put m m₁ i (m.grown word)) (sift : Rearranged m₁ m')
  /-- The word enters at the back. -/
  | enters (m₁ : Miner) (slot : (m.trie.markOf word).slot = none)
      (room : m.heap.size < m.capacity) (put : Put m m₁ m.heap.size (m.grown word))
      (sift : Rearranged m₁ m')
  /-- The word takes the place of the resident in front, whose count it has exceeded. -/
  | replaces (m₁ : Miner) (slot : (m.trie.markOf word).slot = none)
      (full : m.heap.size = m.capacity) (more : m.countAt 0 < (m.grown word).count)
      (put : Put m m₁ 0 (m.grown word)) (sift : Rearranged m₁ m')
  /-- The word is passed by, and only its count changes. -/
  | passes (slot : (m.trie.markOf word).slot = none) (full : m.heap.size = m.capacity)
      (less : (m.grown word).count ≤ m.countAt 0) (capacity : m'.capacity = m.capacity)
      (heap : m'.heap = m.heap) (sorted : m'.trie.Sorted)
      (marks : ∀ w, m'.trie.markOf w
        = if w = word then ⟨(m.grown word).count, none⟩ else m.trie.markOf w)

/-! ## Counting the word -/

/-- The state in which only the count of a word has grown. -/
def tally (m : Miner) (word : String) : Miner :=
  { m with trie := m.trie.modify (fun mark => { mark with count := mark.count + 1 }) word }

theorem Linked.markOf_tally (h : m.Linked) (hword : word ≠ "") (w : String) :
    (m.tally word).trie.markOf w = if w = word then
      ⟨(m.grown word).count, (m.trie.markOf word).slot⟩ else m.trie.markOf w :=
  Trie.markOf_modify h.sorted hword _ w

theorem Linked.sorted_tally (h : m.Linked) (word : String) : (m.tally word).trie.Sorted :=
  h.sorted.modify _ word

theorem Linked.add_eq (h : m.Linked) (hword : word ≠ "") :
    m.add word = (m.tally word).promote (m.grown word) (m.trie.markOf word).slot := by
  have hempty : ¬ word.isEmpty = true := fun he => hword (String.isEmpty_iff.mp he)
  have hmark := h.markOf_tally hword word
  rw [if_pos rfl] at hmark
  rw [add, if_neg hempty]
  show (m.tally word).promote ⟨word, ((m.tally word).trie.markOf word).count⟩
    ((m.tally word).trie.markOf word).slot = _
  rw [hmark]
  rfl

/-! ## Entries while reading -/

/-- Noting a slot does not depend on the heap. -/
theorem markOf_note_heap (h : m.trie.Sorted) (hword : word ≠ "") (heap : Array Resident)
    (slot : Option Nat) (w : String) :
    (({ m with heap := heap } : Miner).note word slot).trie.markOf w
      = if w = word then ⟨(m.trie.markOf word).count, slot⟩ else m.trie.markOf w :=
  markOf_note h hword slot w

theorem Linked.put_stays (h : m.Linked) (hword : word ≠ "") {i : Nat}
    (hslot : (m.trie.markOf word).slot = some i) :
    Put m { m.tally word with heap := m.heap.setIfInBounds i (m.grown word) } i (m.grown word) := by
  obtain ⟨r, hi, hr⟩ := h.placed word i hslot
  have hmark := h.markOf_tally hword
  refine ⟨rfl, h.sorted_tally word, ?_, fun k hk => ?_, ?_, fun w (hw : w ≠ word) => ?_⟩
  · exact Array.getElem?_setIfInBounds_self_of_lt (lt_size_of_getElem? hi)
  · exact Array.getElem?_setIfInBounds_ne hk.symm
  · show (m.tally word).trie.markOf word = _
    rw [hmark, if_pos rfl, hslot]
  · have hwi : (m.trie.markOf w).slot ≠ some i := fun hwi =>
      hw (((h.slot_eq_some_iff hi).mp hwi).trans hr)
    show (m.tally word).trie.markOf w = _
    rw [hmark, if_neg hw, if_neg hwi]

theorem Linked.put_enters (h : m.Linked) (hword : word ≠ "") :
    Put m (({ m.tally word with heap := m.heap.push (m.grown word) } : Miner).note word
      (some m.heap.size)) m.heap.size (m.grown word) := by
  have hmark := h.markOf_tally hword
  have hnote := markOf_note_heap (h.sorted_tally word) hword (m.heap.push (m.grown word))
    (some m.heap.size)
  refine ⟨rfl, sorted_note (h.sorted_tally word) _ _, ?_, fun k hk => ?_, ?_,
    fun w (hw : w ≠ word) => ?_⟩
  · exact Array.getElem?_push_size
  · rw [heap_note, Array.getElem?_push, if_neg hk]
  · refine (hnote word).trans ?_
    rw [if_pos rfl, hmark, if_pos rfl]
  · have hwi : (m.trie.markOf w).slot ≠ some m.heap.size := fun hwi =>
      lt_irrefl _ (h.slot_lt_size hwi)
    rw [hnote, if_neg hw, hmark, if_neg hw, if_neg hwi]

theorem Linked.put_replaces (h : m.Linked) (hword : word ≠ "") {least : Resident}
    (hleast : m.heap[0]? = some least) (hslot : (m.trie.markOf word).slot = none) :
    Put m (({ (m.tally word).note least.word none with
      heap := m.heap.setIfInBounds 0 (m.grown word) } : Miner).note word (some 0)) 0
      (m.grown word) := by
  have hne : word ≠ least.word := by
    rintro rfl
    rw [h.marked 0 least hleast] at hslot
    exact Option.some_ne_none 0 hslot
  have hmark := h.markOf_tally hword
  have hleave := markOf_note (h.sorted_tally word) (h.word_ne_empty hleast) none
  have hsorted : ((m.tally word).note least.word none).trie.Sorted :=
    sorted_note (h.sorted_tally word) _ _
  have hnote := markOf_note_heap hsorted hword (m.heap.setIfInBounds 0 (m.grown word)) (some 0)
  refine ⟨rfl, sorted_note hsorted _ _, ?_, fun k hk => ?_, ?_, fun w (hw : w ≠ word) => ?_⟩
  · exact Array.getElem?_setIfInBounds_self_of_lt (lt_size_of_getElem? hleast)
  · exact Array.getElem?_setIfInBounds_ne hk.symm
  · refine (hnote word).trans ?_
    rw [if_pos rfl, hleave, if_neg hne, hmark, if_pos rfl]
  · rw [hnote, if_neg hw, hleave]
    by_cases hwl : w = least.word
    · rw [if_pos hwl, if_pos ((h.slot_eq_some_iff hleast).mpr hwl), hmark, ← hwl, if_neg hw]
    · rw [if_neg hwl, if_neg (fun hw0 => hwl ((h.slot_eq_some_iff hleast).mp hw0)), hmark,
        if_neg hw]

/-- A word without a slot can be counted without anything else. -/
theorem Linked.tally (h : m.Linked) (hword : word ≠ "") (hslot : (m.trie.markOf word).slot = none) :
    (m.tally word).Linked := by
  have hmark := h.markOf_tally hword
  refine ⟨h.sorted_tally word, fun i r hi => ?_, fun w i hw => ?_⟩
  · have hne : r.word ≠ word := h.slot_eq_none_iff.mp hslot r (mem_residents_iff.mpr ⟨i, hi⟩)
    rw [hmark, if_neg hne]
    exact h.marked i r hi
  · rw [hmark] at hw
    by_cases hne : w = word
    · rw [if_pos hne, hslot] at hw
      exact absurd hw.symm (Option.some_ne_none i)
    · rw [if_neg hne] at hw
      exact h.placed w i hw

/-! ## One of the four happens -/

/-- After an entry and a sift a miner is intact again. -/
theorem Intact.of_put (h : m.Intact) {i : Nat} {r : Resident} (hput : Put m m₁ i r)
    (hsift : Rearranged m₁ m') (hi : i < m.capacity) (hordered : m'.Ordered) : m'.Intact := by
  have hcapacity : m'.capacity = m.capacity := hsift.capacity.trans hput.capacity
  refine ⟨hsift.linked, hordered, ?_, hcapacity ▸ h.positive⟩
  rw [hsift.size, hcapacity]
  by_contra hlt
  have hroom := h.room
  rcases (hput.lt_size_iff m.capacity).mp (not_le.mp hlt) with heq | hlt'
  · exact absurd heq hi.ne'
  · exact absurd hroom (not_le.mpr hlt')

theorem Intact.reading_of_slot (h : m.Intact) (hword : word ≠ "") {i : Nat}
    (hslot : (m.trie.markOf word).slot = some i) :
    Reading m word (m.add word) ∧ (m.add word).Intact := by
  obtain ⟨r, hi, hr⟩ := h.linked.placed word i hslot
  have hsize : i < m.heap.size := lt_size_of_getElem? hi
  have hput := h.linked.put_stays hword hslot
  have hsift := (h.linked.put hput (Or.inr hslot)).rearranged_siftDown i
  have hgrown : m.countAt i ≤ (m.grown word).count := by
    have hmark := h.linked.marked i r hi
    rw [countAt_of_getElem? hi, grown, ← hr, hmark]
    exact Nat.le_succ r.count
  rw [← hput.countAt_eq] at hgrown
  rw [h.linked.add_eq hword, hslot]
  exact ⟨.stays i _ hslot hput hsift, h.of_put hput hsift (hsize.trans_le h.room)
    (h.ordered.raise hput.elsewhere hsize hgrown).siftDown⟩

theorem Intact.reading_of_room (h : m.Intact) (hword : word ≠ "")
    (hslot : (m.trie.markOf word).slot = none) (hroom : m.heap.size < m.capacity) :
    Reading m word (m.add word) ∧ (m.add word).Intact := by
  have hput := h.linked.put_enters hword
  have hsift := (h.linked.put hput (Or.inl hslot)).rearranged_siftUp hput.lt_size
  have heq : m.add word = (({ m.tally word with heap := m.heap.push (m.grown word) } : Miner).note
      word (some m.heap.size)).siftUp m.heap.size := by
    rw [h.linked.add_eq hword, hslot]
    exact (if_neg fun hpass => hroom.ne hpass.1).trans (if_pos hroom)
  rw [heq]
  exact ⟨.enters _ hslot hroom hput hsift, h.of_put hput hsift hroom
    ((h.ordered.push hput.elsewhere rfl).siftUp hput.lt_size)⟩

theorem Intact.reading_of_full (h : m.Intact) (hword : word ≠ "")
    (hslot : (m.trie.markOf word).slot = none) (hfull : m.heap.size = m.capacity) :
    Reading m word (m.add word) ∧ (m.add word).Intact := by
  by_cases hless : (m.grown word).count ≤ m.countAt 0
  · have heq : m.add word = m.tally word := by
      rw [h.linked.add_eq hword, hslot]
      exact if_pos ⟨hfull, hless⟩
    have hmark := h.linked.markOf_tally hword
    rw [hslot] at hmark
    rw [heq]
    exact ⟨.passes hslot hfull hless rfl rfl (h.linked.sorted_tally word) hmark,
      h.linked.tally hword hslot, h.ordered, h.room, h.positive⟩
  · have hsize : 0 < m.heap.size := hfull ▸ h.positive
    have hleast := Array.getElem?_eq_getElem hsize
    have hput := h.linked.put_replaces hword hleast hslot
    have hsift := (h.linked.put hput (Or.inl hslot)).rearranged_siftDown 0
    have hmore : m.countAt 0 < (m.grown word).count := not_le.mp hless
    have heq : m.add word = (({ (m.tally word).note m.heap[0].word none with
        heap := m.heap.setIfInBounds 0 (m.grown word) } : Miner).note word (some 0)).siftDown 0 := by
      have hleast' : (m.tally word).heap[0]? = some m.heap[0] := hleast
      rw [h.linked.add_eq hword, hslot]
      refine (if_neg fun hpass => hless hpass.2).trans ((if_neg hfull.not_lt).trans ?_)
      simp only [hleast']
      rfl
    rw [heq]
    exact ⟨.replaces _ hslot hfull hmore hput hsift, h.of_put hput hsift h.positive
      (h.ordered.raise hput.elsewhere hsize (hput.countAt_eq ▸ hmore.le)).siftDown⟩

/-- **Reading a word does one of the four things**, and the miner stays intact. -/
theorem Intact.reading (h : m.Intact) (hword : word ≠ "") :
    Reading m word (m.add word) ∧ (m.add word).Intact := by
  cases hslot : (m.trie.markOf word).slot with
  | some i => exact h.reading_of_slot hword hslot
  | none =>
    rcases lt_or_eq_of_le h.room with hroom | hfull
    · exact h.reading_of_room hword hslot hroom
    · exact h.reading_of_full hword hslot hfull

/-- The empty word changes nothing. -/
theorem add_empty (m : Miner) : m.add "" = m := rfl

theorem Intact.add (h : m.Intact) (word : String) : (m.add word).Intact := by
  by_cases hword : word = ""
  · rw [hword, add_empty]
    exact h
  · exact (h.reading hword).2

/-- A miner stays intact while it reads. -/
theorem Intact.addAll (h : m.Intact) (words : List String) : (m.addAll words).Intact := by
  induction words generalizing m with
  | nil => exact h
  | cons word words ih => exact ih (h.add word)

/-! ## What all four have in common -/

/-- No resident has a lesser count than the one in front. -/
theorem Intact.least_le (h : m.Intact) {r : Resident} (hr : r ∈ m.residents) :
    m.countAt 0 ≤ r.count := by
  obtain ⟨i, hi⟩ := mem_residents_iff.mp hr
  rw [← countAt_of_getElem? hi]
  exact h.ordered.least (lt_size_of_getElem? hi)

/-- If the one that comes in has no lesser count than the front had, neither has the front now. -/
theorem Intact.least_le_of_put (h : m.Intact) {i : Nat} {r : Resident} (hput : Put m m₁ i r)
    (hsift : Rearranged m₁ m') (hfront : 0 < m'.heap.size) (hr : m.countAt 0 ≤ r.count) :
    m.countAt 0 ≤ m'.countAt 0 := by
  have hleast := Array.getElem?_eq_getElem hfront
  have hmem : m'.heap[0] ∈ m'.residents := mem_residents_iff.mpr ⟨0, hleast⟩
  rw [countAt_of_getElem? hleast]
  rcases hput.mem_residents (hsift.residents.mem_iff.mp hmem) with heq | hold
  · rw [heq]
    exact hr
  · exact h.least_le hold

namespace Reading

theorem capacity_eq (h : Reading m word m') : m'.capacity = m.capacity := by
  cases h with
  | stays _ _ _ put sift => exact sift.capacity.trans put.capacity
  | enters _ _ _ put sift => exact sift.capacity.trans put.capacity
  | replaces _ _ _ _ put sift => exact sift.capacity.trans put.capacity
  | passes _ _ _ capacity => exact capacity

/-- Only the count of the word grows. -/
theorem count_markOf (h : Reading m word m') (w : String) : (m'.trie.markOf w).count
    = if w = word then (m.grown word).count else (m.trie.markOf w).count := by
  cases h with
  | stays _ _ _ put sift => exact (sift.counts w).trans (put.count_markOf w)
  | enters _ _ _ put sift => exact (sift.counts w).trans (put.count_markOf w)
  | replaces _ _ _ _ put sift => exact (sift.counts w).trans (put.count_markOf w)
  | passes _ _ _ _ _ _ marks =>
    rw [marks]
    split
    · rfl
    · rfl

/-- Whoever is a resident now has just been read or was a resident before. -/
theorem mem_residents (h : Reading m word m') {r : Resident} (hr : r ∈ m'.residents) :
    r = m.grown word ∨ r ∈ m.residents := by
  cases h with
  | stays _ _ _ put sift => exact put.mem_residents (sift.residents.mem_iff.mp hr)
  | enters _ _ _ put sift => exact put.mem_residents (sift.residents.mem_iff.mp hr)
  | replaces _ _ _ _ put sift => exact put.mem_residents (sift.residents.mem_iff.mp hr)
  | passes _ _ _ _ heap =>
    rw [residents, heap] at hr
    exact Or.inr hr

/-- A full heap stays full. -/
theorem full (h : Reading m word m') (hm : m.Intact) (hfull : m.heap.size = m.capacity) :
    m'.heap.size = m'.capacity := by
  rw [h.capacity_eq, ← hfull]
  cases h with
  | stays _ _ slot put sift => exact sift.size.trans (put.size (hm.linked.slot_lt_size slot))
  | enters _ _ room => exact absurd hfull room.ne
  | replaces _ _ _ _ put sift => exact sift.size.trans (put.size (hfull ▸ hm.positive))
  | passes _ _ _ _ heap => rw [heap]

/-- **The least count of a full heap never falls.** -/
theorem least_le (h : Reading m word m') (hm : m.Intact) (hfull : m.heap.size = m.capacity) :
    m.countAt 0 ≤ m'.countAt 0 := by
  have hfront : 0 < m'.heap.size := by
    rw [h.full hm hfull, h.capacity_eq]
    exact hm.positive
  cases h with
  | stays i _ slot put sift =>
    obtain ⟨r, hi, hr⟩ := hm.linked.placed word i slot
    have hmark := hm.linked.marked i r hi
    have hleast : m.countAt 0 ≤ r.count := hm.least_le (mem_residents_iff.mpr ⟨i, hi⟩)
    refine hm.least_le_of_put put sift hfront ?_
    rw [grown, ← hr, hmark]
    exact hleast.trans (Nat.le_succ r.count)
  | enters _ _ room => exact absurd hfull room.ne
  | replaces _ _ _ more put sift => exact hm.least_le_of_put put sift hfront more.le
  | passes _ _ _ _ heap => exact (countAt_congr (by rw [heap])).ge

/-- Whoever is no resident now was none before and was not read just now, or its count has not
exceeded the least count of a full heap. -/
theorem outsider (h : Reading m word m') (hm : m.Intact) {w : String}
    (hw : (m'.trie.markOf w).slot = none) :
    (w ≠ word ∧ (m.trie.markOf w).slot = none) ∨
      (m.heap.size = m.capacity ∧ (m'.trie.markOf w).count ≤ m.countAt 0) := by
  have hcount := h.count_markOf w
  cases h with
  | stays i m₁ slot put sift =>
    have hlinked := hm.linked.put put (Or.inr slot)
    obtain ⟨hne, hnone | hsome⟩ := put.slot_eq_none ((sift.slot_eq_none_iff hlinked).mp hw)
    · exact Or.inl ⟨hne, hnone⟩
    · obtain ⟨r, hi, hr⟩ := hm.linked.placed word i slot
      exact absurd (((hm.linked.slot_eq_some_iff hi).mp hsome).trans hr) hne
  | enters m₁ slot room put sift =>
    have hlinked := hm.linked.put put (Or.inl slot)
    obtain ⟨hne, hnone | hsome⟩ := put.slot_eq_none ((sift.slot_eq_none_iff hlinked).mp hw)
    · exact Or.inl ⟨hne, hnone⟩
    · exact absurd (hm.linked.slot_lt_size hsome) (lt_irrefl _)
  | replaces m₁ slot full more put sift =>
    have hlinked := hm.linked.put put (Or.inl slot)
    obtain ⟨hne, hnone | hsome⟩ := put.slot_eq_none ((sift.slot_eq_none_iff hlinked).mp hw)
    · exact Or.inl ⟨hne, hnone⟩
    · obtain ⟨r, hr, rfl⟩ := hm.linked.placed w 0 hsome
      have hne' : r.word ≠ word := hne
      rw [if_neg hne', hm.linked.marked 0 r hr] at hcount
      rw [hcount, countAt_of_getElem? hr]
      exact Or.inr ⟨full, le_refl _⟩
  | passes slot full less capacity heap sorted marks =>
    by_cases hne : w = word
    · rw [if_pos hne] at hcount
      rw [hcount]
      exact Or.inr ⟨full, less⟩
    · rw [marks, if_neg hne] at hw
      exact Or.inl ⟨hne, hw⟩

end Reading

theorem Intact.capacity_add (h : m.Intact) (word : String) :
    (m.add word).capacity = m.capacity := by
  by_cases hword : word = ""
  · rw [hword, add_empty]
  · exact (h.reading hword).1.capacity_eq

/-- The capacity never changes. -/
theorem Intact.capacity_addAll (h : m.Intact) (words : List String) :
    (m.addAll words).capacity = m.capacity := by
  induction words generalizing m with
  | nil => rfl
  | cons word words ih => exact (ih (h.add word)).trans (h.capacity_add word)

end RepairCorpus.Miner
