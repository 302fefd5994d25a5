import RepairCorpus.Proofs.Vocabulary.ArenaWalks
import RepairCorpus.Proofs.Vocabulary.Reading
import RepairCorpus.Vocabulary.ArrayMiner

/-!
# A miner with arrays mirrors a miner

A miner with arrays does step by step what `Miner` does.  Its heap has the same residents, each with the
cell of its word, and the cells know of their words what the marks of the other trie say.  While this holds
an index that is looked up is in range: the indices of cells come from the heap or from spelling a word, and
those of slots from the marks.

The two differ in one place.  An array that has no residents yet takes a word in without asking for room,
and here the other miner needs room for at least one.

* `ArrayMiner.Mirrors`: a miner with arrays mirrors a miner.
* `Mirrors.swap`, `Mirrors.siftUp`, `Mirrors.siftDown`, `Mirrors.enroll`, `Mirrors.promote`: the steps.
* `Mirrors.add`, `Mirrors.addAll`: **reading words is mirrored, and every index is in range**.
* `Mirrors.same_answers`: all questions have the same answers.
-/

namespace RepairCorpus

theorem Mark.getD_seen? (mark : Mark) : mark.seen?.getD 0 = mark.count := by
  rw [seen?]
  split
  next h => exact h.symm
  next => rfl

theorem Miner.count?_eq_seen? (m : Miner) (w : String) : m.count? w = (m.trie.markOf w).seen? := by
  rw [count?, Mark.seen?]
  split
  next h => rw [if_pos h]
  next h => rw [if_neg h]

theorem map_swapIfInBounds {α β : Type} (f : α → β) (xs : Array α) {i j : Nat} (hi : i < xs.size)
    (hj : j < xs.size) : (xs.swapIfInBounds i j).map f = (xs.map f).swapIfInBounds i j := by
  have hi' : i < (xs.map f).size := by rwa [Array.size_map]
  have hj' : j < (xs.map f).size := by rwa [Array.size_map]
  refine Array.ext_getElem? fun k => ?_
  rw [Array.swapIfInBounds_def, dif_pos hi, dif_pos hj, Array.swapIfInBounds_def, dif_pos hi', dif_pos hj',
    Array.getElem?_map, Array.getElem?_swap, Array.getElem?_swap, Array.getElem_map, Array.getElem_map,
    Array.getElem?_map]
  split
  · rfl
  · split <;> rfl

namespace ArrayMiner

section Steps

variable {t : ArrayMiner} {i child : Nat} {x y : Entry}

theorem siftUp_of_entries (hi : i ≠ 0) (hy : t.heap[(i - 1) / 2]? = some y) (hx : t.heap[i]? = some x) :
    t.siftUp i = if y.count ≤ x.count then some t
      else (t.swap i ((i - 1) / 2)).bind fun t => t.siftUp ((i - 1) / 2) := by
  rw [siftUp, dif_neg hi, hy, hx]
  rfl

theorem siftDown_of_entries {size : Nat} (hi : ¬ size ≤ 2 * i + 1)
    (hchild : t.lesserChild size i = some child) (hx : t.heap[i]? = some x)
    (hy : t.heap[child]? = some y) :
    siftDown size t i = if x.count ≤ y.count then some t
      else (t.swap i child).bind fun t => siftDown size t child := by
  rw [siftDown, if_neg hi]
  split
  next hnone => exact absurd (hchild.symm.trans hnone) (Option.some_ne_none child)
  next c hc =>
    cases hchild.symm.trans hc
    rw [hx, hy]
    rfl

end Steps

/-- A miner with arrays mirrors a miner. -/
structure Mirrors (t : ArrayMiner) (m : Miner) (words : List (List Char)) : Prop where
  arena : t.arena.Holds words fun cs => m.trie.markOf (String.ofList cs)
  sorted : m.trie.Sorted
  capacity : t.capacity = m.capacity
  heap : t.heap.map Entry.resident = m.heap
  entry : ∀ e ∈ t.heap, e.word ≠ "" ∧ words[e.cell]? = some e.word.toList

namespace Mirrors

variable {t : ArrayMiner} {m : Miner} {words : List (List Char)} {word : String} {i j cell : Nat}

theorem getElem?_heap (h : t.Mirrors m words) (i : Nat) :
    m.heap[i]? = (t.heap[i]?).map Entry.resident := by
  rw [← h.heap, Array.getElem?_map]

theorem size_heap (h : t.Mirrors m words) : m.heap.size = t.heap.size := by
  rw [← h.heap, Array.size_map]

theorem countAt_eq (h : t.Mirrors m words) {e : Entry} (hi : t.heap[i]? = some e) :
    m.countAt i = e.count := by
  rw [Miner.countAt, h.getElem?_heap, hi]
  rfl

theorem exists_entry (h : t.Mirrors m words) (hi : i < m.heap.size) :
    ∃ e, t.heap[i]? = some e ∧ m.heap[i]? = some e.resident := by
  have he := Array.getElem?_eq_getElem (h.size_heap ▸ hi)
  exact ⟨_, he, by rw [h.getElem?_heap, he]; rfl⟩

/-- The heap is replaced in both. -/
theorem withHeap (h : t.Mirrors m words) (heap : Array Entry)
    (hentry : ∀ e ∈ heap, e ∈ t.heap ∨ e.word ≠ "" ∧ words[e.cell]? = some e.word.toList) :
    Mirrors { t with heap := heap } { m with heap := heap.map Entry.resident } words :=
  ⟨h.arena, h.sorted, h.capacity, rfl, fun e he => (hentry e he).elim (h.entry e) id⟩

/-- An entry is put at the back of the heap. -/
theorem push (h : t.Mirrors m words) {e : Entry} (hword : e.word ≠ "")
    (hcell : words[e.cell]? = some e.word.toList) :
    Mirrors { t with heap := t.heap.push e } { m with heap := m.heap.push e.resident } words := by
  rw [← h.heap, ← Array.map_push]
  refine h.withHeap _ fun x hx => ?_
  rcases Array.mem_push.mp hx with hold | rfl
  · exact Or.inl hold
  · exact Or.inr ⟨hword, hcell⟩

/-- An entry is put into a slot of the heap. -/
theorem setSlot (h : t.Mirrors m words) {e : Entry} (hword : e.word ≠ "")
    (hcell : words[e.cell]? = some e.word.toList) (i : Nat) :
    Mirrors { t with heap := t.heap.setIfInBounds i e }
      { m with heap := m.heap.setIfInBounds i e.resident } words := by
  rw [← h.heap, ← Array.map_setIfInBounds]
  refine h.withHeap _ fun x hx => ?_
  rcases Array.mem_or_eq_of_mem_setIfInBounds hx with hold | rfl
  · exact Or.inl hold
  · exact Or.inr ⟨hword, hcell⟩

/-! ## The heap -/

/-- What is known of the words after a change of one mark. -/
theorem markOf_modify_eq (h : t.Mirrors m words) (hword : word ≠ "") (f : Mark → Mark) :
    (fun cs => (m.trie.modify f word).markOf (String.ofList cs))
      = Function.update (fun cs => m.trie.markOf (String.ofList cs)) word.toList
          (f (m.trie.markOf word)) := by
  refine funext fun cs => ?_
  rw [Trie.markOf_modify h.sorted hword, Function.update_apply]
  refine if_congr ?_ rfl rfl
  rw [← String.toList_inj, String.toList_ofList]

/-- A slot is noted. -/
theorem note (h : t.Mirrors m words) (hword : word ≠ "") (hcell : words[cell]? = some word.toList)
    (slot : Option Nat) :
    ∃ t', t.note cell slot = some t' ∧ t'.heap = t.heap ∧ t'.Mirrors (m.note word slot) words := by
  obtain ⟨a, hupdate, ha⟩ := h.arena.update hcell fun x hx => hx.placed slot
  rw [String.ofList_toList] at ha
  refine ⟨⟨t.capacity, a, t.heap⟩, ?_, rfl, ⟨?_, h.sorted.modify _ word, h.capacity, h.heap, h.entry⟩⟩
  · rw [ArrayMiner.note, hupdate]
    rfl
  · exact h.markOf_modify_eq hword _ ▸ ha

/-- Two entries are exchanged. -/
theorem swap (h : t.Mirrors m words) (hi : i < m.heap.size) (hj : j < m.heap.size) :
    ∃ t', t.swap i j = some t' ∧ t'.Mirrors (m.swap i j) words := by
  obtain ⟨x, hx, hx'⟩ := h.exists_entry hi
  obtain ⟨y, hy, hy'⟩ := h.exists_entry hj
  rw [h.size_heap] at hi hj
  have hheap := h.withHeap (t.heap.swapIfInBounds i j) fun e he => Or.inl <| by
    rw [Array.swapIfInBounds_def, dif_pos hi, dif_pos hj] at he
    exact (Array.swap_perm hi hj).mem_iff.mp he
  rw [map_swapIfInBounds _ _ hi hj, h.heap] at hheap
  have hyentry := h.entry y (Array.mem_of_getElem? hy)
  have hxentry := h.entry x (Array.mem_of_getElem? hx)
  obtain ⟨t₁, hnote, -, h₁⟩ := hheap.note hyentry.1 hyentry.2 (some i)
  obtain ⟨t₂, hnote', -, h₂⟩ := h₁.note hxentry.1 hxentry.2 (some j)
  refine ⟨t₂, ?_, Miner.swap_eq hx' hy' ▸ h₂⟩
  rw [ArrayMiner.swap, hx, hy]
  simp only [Option.bind_eq_bind, Option.bind_some, hnote]
  exact hnote'

/-- An entry moves towards the front. -/
theorem siftUp (hi : i < m.heap.size) :
    ∀ {t : ArrayMiner}, t.Mirrors m words →
      ∃ t', t.siftUp i = some t' ∧ t'.Mirrors (m.siftUp i) words := by
  induction m, i using Miner.siftUp.induct with
  | case1 m =>
    intro t h
    rw [ArrayMiner.siftUp, dif_pos rfl, Miner.siftUp_zero]
    exact ⟨t, rfl, h⟩
  | case2 m i hi0 parent hle =>
    intro t h
    obtain ⟨y, hy, -⟩ := h.exists_entry ((Miner.isChild_parent hi0).lt.trans hi)
    obtain ⟨x, hx, -⟩ := h.exists_entry hi
    rw [Miner.siftUp_of_le hle]
    rw [h.countAt_eq hy, h.countAt_eq hx] at hle
    rw [siftUp_of_entries hi0 hy hx, if_pos hle]
    exact ⟨t, rfl, h⟩
  | case3 m i hi0 parent hle ih =>
    intro t h
    have hparent := (Miner.isChild_parent hi0).lt.trans hi
    obtain ⟨y, hy, -⟩ := h.exists_entry hparent
    obtain ⟨x, hx, -⟩ := h.exists_entry hi
    obtain ⟨t₁, hswap, h₁⟩ := h.swap hi hparent
    obtain ⟨t₂, hsift, h₂⟩ := ih (by rwa [Miner.size_heap_swap]) h₁
    rw [Miner.siftUp_of_not_le hi0 hle]
    rw [h.countAt_eq hy, h.countAt_eq hx] at hle
    rw [siftUp_of_entries hi0 hy hx, if_neg hle, hswap]
    exact ⟨t₂, hsift, h₂⟩

/-- The lesser child is the same. -/
theorem lesserChild (h : t.Mirrors m words) (hi : ¬ m.heap.size ≤ 2 * i + 1) :
    t.lesserChild m.heap.size i = some (m.lesserChild i) := by
  obtain ⟨y, hy, -⟩ := h.exists_entry (not_le.mp hi)
  simp only [ArrayMiner.lesserChild, Miner.lesserChild]
  by_cases hright : 2 * i + 1 + 1 < m.heap.size
  · obtain ⟨x, hx, -⟩ := h.exists_entry hright
    rw [if_pos hright, hx, hy, h.countAt_eq hx, h.countAt_eq hy]
    simp only [Option.bind_eq_bind, Option.bind_some, hright, true_and]
    rfl
  · rw [if_neg hright, if_neg fun hboth => hright hboth.1]

/-- An entry moves towards the back. -/
theorem siftDown {size : Nat} (hheap : m.heap.size = size) (i : Nat) :
    ∀ {t : ArrayMiner}, t.Mirrors m words →
      ∃ t', ArrayMiner.siftDown size t i = some t' ∧ t'.Mirrors (m.siftDown i) words := by
  induction m, i using Miner.siftDown.induct with
  | case1 m i hsize =>
    intro t h
    rw [Miner.siftDown_of_size_le hsize, ArrayMiner.siftDown, ← hheap, if_pos hsize]
    exact ⟨t, rfl, h⟩
  | case2 m i hsize child hle =>
    intro t h
    have hchild := Miner.lesserChild_lt hsize
    obtain ⟨x, hx, -⟩ := h.exists_entry ((m.lt_lesserChild i).trans hchild)
    obtain ⟨y, hy, -⟩ := h.exists_entry hchild
    rw [Miner.siftDown_of_le hle]
    rw [h.countAt_eq hx, h.countAt_eq hy] at hle
    rw [← hheap, siftDown_of_entries hsize (h.lesserChild hsize) hx hy, if_pos hle]
    exact ⟨t, rfl, h⟩
  | case3 m i hsize child hle ih =>
    intro t h
    have hchild := Miner.lesserChild_lt hsize
    have hi := (m.lt_lesserChild i).trans hchild
    obtain ⟨x, hx, -⟩ := h.exists_entry hi
    obtain ⟨y, hy, -⟩ := h.exists_entry hchild
    obtain ⟨t₁, hswap, h₁⟩ := h.swap hi hchild
    obtain ⟨t₂, hsift, h₂⟩ := ih ((Miner.size_heap_swap i child).trans hheap) h₁
    rw [Miner.siftDown_of_not_le hsize hle]
    rw [h.countAt_eq hx, h.countAt_eq hy] at hle
    subst hheap
    rw [siftDown_of_entries hsize (h.lesserChild hsize) hx hy, if_neg hle, hswap]
    exact ⟨t₂, hsift, h₂⟩

/-! ## Words -/

/-- An entry is let in. -/
theorem enroll (h : t.Mirrors m words) (hroom : 0 < m.capacity) {e : Entry} (hword : e.word ≠ "")
    (hcell : words[e.cell]? = some e.word.toList) :
    ∃ t', t.enroll e = some t' ∧ t'.Mirrors (m.enroll e.resident) words := by
  by_cases hfree : m.heap.size < m.capacity
  · obtain ⟨t₁, hnote, hheap, h₁⟩ := h.note hword hcell (some t.heap.size)
    have hback : t.heap.size < (m.heap.push e.resident).size := by
      rw [Array.size_push, h.size_heap]
      exact Nat.lt_succ_self _
    obtain ⟨t₂, hsift, h₂⟩ := siftUp hback (h₁.push hword hcell)
    refine ⟨t₂, ?_, ?_⟩
    · rw [h.size_heap, ← h.capacity] at hfree
      rw [ArrayMiner.enroll, if_pos hfree]
      simp only [Option.bind_eq_bind, hnote, Option.bind_some]
      exact hsift
    · rw [Miner.enroll, if_pos hfree, h.size_heap]
      exact h₂
  · obtain ⟨least, hleast, hleast'⟩ := h.exists_entry (hroom.trans_le (not_lt.mp hfree))
    have hentry := h.entry least (Array.mem_of_getElem? hleast)
    obtain ⟨t₁, hnote, -, h₁⟩ := h.note hentry.1 hentry.2 none
    obtain ⟨t₂, hnote', -, h₂⟩ := h₁.note hword hcell (some 0)
    have h₃ := h₂.setSlot hword hcell 0
    obtain ⟨t₄, hsift, h₄⟩ := siftDown h₃.size_heap 0 h₃
    refine ⟨t₄, ?_, ?_⟩
    · rw [h.size_heap, ← h.capacity] at hfree
      rw [ArrayMiner.enroll, if_neg hfree]
      simp only [Option.bind_eq_bind, hleast, hnote, hnote', Option.bind_some]
      exact hsift
    · rw [Miner.enroll, if_neg hfree, hleast']
      exact h₄

theorem passesBy (h : t.Mirrors m words) (hroom : 0 < m.capacity) (count : Nat) :
    t.passesBy count = some (decide (m.heap.size = m.capacity ∧ count ≤ m.countAt 0)) := by
  rw [ArrayMiner.passesBy, ← h.size_heap, h.capacity]
  by_cases hfull : m.heap.size = m.capacity
  · obtain ⟨least, hleast, -⟩ := h.exists_entry (hfull ▸ hroom)
    rw [if_pos hfull, hleast, h.countAt_eq hleast]
    simp only [hfull, true_and]
    rfl
  · rw [if_neg hfull]
    simp only [hfull, false_and, decide_false]

/-- The first entry is let in without being asked for room. -/
theorem enroll_first (h : t.Mirrors m words) (hroom : 0 < m.capacity) (hempty : m.heap.size = 0)
    {e : Entry} (hword : e.word ≠ "") (hcell : words[e.cell]? = some e.word.toList) :
    ∃ t', { t with heap := t.heap.push e }.note e.cell (some 0) = some t' ∧
      t'.Mirrors (m.enroll e.resident) words := by
  obtain ⟨t', hnote, -, h'⟩ := (h.push hword hcell).note hword hcell (some 0)
  refine ⟨t', hnote, ?_⟩
  rw [Miner.enroll, hempty, if_pos hroom, Miner.siftUp_zero]
  exact h'

/-- An entry gets a new count. -/
theorem recount (h : t.Mirrors m words) {e : Entry} (hi : t.heap[i]? = some e) (count : Nat) :
    ∃ t', ArrayMiner.siftDown (t.heap.setIfInBounds i { e with count := count }).size
        { t with heap := t.heap.setIfInBounds i { e with count := count } } i = some t' ∧
      t'.Mirrors ({ m with heap := m.heap.setIfInBounds i ⟨e.word, count⟩ }.siftDown i) words := by
  obtain ⟨hword, hcell⟩ := h.entry e (Array.mem_of_getElem? hi)
  have h₁ := h.setSlot (e := { e with count := count }) hword hcell i
  exact siftDown h₁.size_heap i h₁

/-- The heap is brought up to date. -/
theorem promote (h : t.Mirrors m words) (hroom : 0 < m.capacity) (hword : word ≠ "")
    (hcell : words[cell]? = some word.toList)
    (hplaced : ∀ i, (m.trie.markOf word).slot = some i → ∃ r, m.heap[i]? = some r ∧ r.word = word) :
    ∃ t', t.promote word cell = some t' ∧
      t'.Mirrors (m.promote ⟨word, (m.trie.markOf word).count⟩ (m.trie.markOf word).slot) words := by
  obtain ⟨x, hx, hstands⟩ := h.arena.cell cell _ hcell
  rw [String.ofList_toList] at hstands
  have hcount : x.count.getD 0 = (m.trie.markOf word).count := by
    rw [hstands.count, Mark.getD_seen?]
  rw [ArrayMiner.promote, hx]
  simp only [Option.bind_eq_bind, Option.bind_some, hcount, hstands.slot]
  have hentry : (⟨word, (m.trie.markOf word).count, cell⟩ : Entry).word ≠ "" := hword
  cases hslot : (m.trie.markOf word).slot with
  | none =>
    rw [Miner.promote]
    by_cases hempty : t.heap.isEmpty = true
    · have hsize : m.heap.size = 0 := h.size_heap.trans (Array.isEmpty_iff_size_eq_zero.mp hempty)
      have hfree : ¬(m.heap.size = m.capacity ∧ (m.trie.markOf word).count ≤ m.countAt 0) :=
        fun hfull => hroom.ne (hsize.symm.trans hfull.1)
      rw [if_pos hempty, if_neg hfree]
      exact h.enroll_first hroom hsize hentry hcell
    · rw [if_neg hempty, h.passesBy hroom]
      simp only [Option.bind_some, decide_eq_true_eq]
      split
      · exact ⟨t, rfl, h⟩
      · exact h.enroll hroom hentry hcell
  | some i =>
    obtain ⟨r, hr, hrword⟩ := hplaced i hslot
    obtain ⟨old, hold, hold'⟩ := h.exists_entry (Miner.lt_size_of_getElem? hr)
    cases hr.symm.trans hold'
    have hempty : ¬ t.heap.isEmpty = true := fun hempty => by
      rw [Array.isEmpty_iff.mp hempty] at hold
      cases hold
    rw [if_neg hempty, ← hrword]
    simp only [hold, Option.bind_some]
    exact h.recount hold _

/-! ## Reading words -/

/-- Spelling a word and counting it leaves the heap alone. -/
theorem add_eq_promote (h : t.Mirrors m words) (hm : m.Intact) (hword : word ≠ "") :
    ∃ t₁ : ArrayMiner, ∃ words' cell, t.add word = t₁.promote word cell ∧ t₁.heap = t.heap ∧
      t₁.Mirrors (m.tally word) words' ∧ words'[cell]? = some word.toList := by
  obtain ⟨cell, a, words', hspell, ha, hwords, hcell⟩ := h.arena.spell h.arena.root word.toList
  rw [List.nil_append] at hcell
  obtain ⟨b, hseen, hb⟩ := ha.update hcell fun x hx => hx.seen
  refine ⟨{ t with arena := b }, words', cell, ?_, rfl, ?_, hcell⟩
  · have hempty : ¬ word.isEmpty = true := fun he => hword (String.isEmpty_iff.mp he)
    rw [ArrayMiner.add, if_neg hempty, Arena.root, hspell]
    simp only [Option.bind_eq_bind, Option.bind_some, hseen]
  · refine ⟨?_, hm.linked.sorted_tally word, h.capacity, h.heap, fun e he => ?_⟩
    · rw [String.ofList_toList] at hb
      exact h.markOf_modify_eq hword _ ▸ hb
    · exact (h.entry e he).imp_right (Arena.Holds.getElem?_of_extends hwords)

/-- A word is read. -/
theorem add (h : t.Mirrors m words) (hm : m.Intact) (word : String) :
    ∃ t' words', t.add word = some t' ∧ t'.Mirrors (m.add word) words' := by
  by_cases hword : word = ""
  · subst hword
    rw [Miner.add_empty]
    exact ⟨t, words, rfl, h⟩
  · obtain ⟨t₁, words', cell, hadd, -, h₁, hcell⟩ := h.add_eq_promote hm hword
    have hmark := hm.linked.markOf_tally hword word
    rw [if_pos rfl] at hmark
    have hplaced : ∀ i, ((m.tally word).trie.markOf word).slot = some i →
        ∃ r, (m.tally word).heap[i]? = some r ∧ r.word = word := fun i hi => by
      rw [hmark] at hi
      exact hm.linked.placed word i hi
    obtain ⟨t', hpromote, h'⟩ := h₁.promote hm.positive hword hcell hplaced
    rw [hmark] at h'
    refine ⟨t', words', hadd.trans hpromote, ?_⟩
    rw [hm.linked.add_eq hword]
    exact h'

/-- **Reading words is mirrored**, and there is a result: no index is out of range. -/
theorem addAll (h : t.Mirrors m words) (hm : m.Intact) (more : List String) :
    ∃ t' words', t.addAll more = some t' ∧ t'.Mirrors (m.addAll more) words' := by
  induction more generalizing t m words with
  | nil => exact ⟨t, words, rfl, h⟩
  | cons word more ih =>
    obtain ⟨t₁, words₁, hadd, h₁⟩ := h.add hm word
    obtain ⟨t₂, words₂, hmore, h₂⟩ := ih h₁ (hm.add word)
    refine ⟨t₂, words₂, ?_, h₂⟩
    rw [ArrayMiner.addAll, List.foldlM_cons, hadd]
    exact hmore

/-! ## Answers -/

theorem count?_eq (h : t.Mirrors m words) (w : String) : t.count? w = some (m.trie.markOf w).seen? := by
  rw [ArrayMiner.count?, h.arena.ask (g := Mark.seen?) (fun _ _ _ hx => hx.count) rfl, String.ofList_toList]

theorem isResident_eq (h : t.Mirrors m words) (w : String) : t.isResident w = some (m.isResident w) := by
  rw [ArrayMiner.isResident, h.arena.ask (g := Mark.slot) (fun _ _ _ hx => hx.slot) rfl,
    String.ofList_toList]
  rfl

theorem residents_eq (h : t.Mirrors m words) : t.residents = m.residents := by
  rw [ArrayMiner.residents, Miner.residents, ← h.heap, Array.toList_map]

theorem counts_eq (h : t.Mirrors m words) : t.counts = some m.counts := by
  obtain ⟨ps, hcounts, hps⟩ := h.arena.counts
  rw [ArrayMiner.counts, hcounts, hps.unique h.sorted.listing_counts]
  rfl

theorem distinct_eq (h : t.Mirrors m words) : t.distinct = m.distinct := by
  rw [ArrayMiner.distinct, h.arena.distinct h.sorted.listing_counts, Trie.length_counts]
  rfl

end Mirrors

/-- A new miner with arrays mirrors a new miner. -/
theorem mirrors_of_no_words (capacity : Nat) :
    Mirrors ⟨capacity, .empty, #[]⟩ ⟨capacity, .empty, #[]⟩ [[]] := by
  refine ⟨?_, trivial, rfl, Array.map_empty, fun e he => absurd he (Array.not_mem_empty e)⟩
  have hblank : (fun cs => Trie.empty.markOf (String.ofList cs)) = fun _ => Mark.blank :=
    funext fun cs => Trie.markOf_empty _
  exact hblank ▸ Arena.holds_empty

/-- **A miner with arrays gives the answers of a miner.**  After any words, no index was out of range and
all questions have the same answers. -/
theorem same_answers {capacity : Nat} (hcapacity : 1 ≤ capacity) (words : List String) :
    ∃ start t start', new capacity = .ok start ∧ start.addAll words = some t ∧
      Miner.new capacity = .ok start' ∧
      let m := start'.addAll words
      (∀ w, t.count? w = some (m.count? w)) ∧ (∀ w, t.isResident w = some (m.isResident w)) ∧
      t.least? = m.least? ∧ t.residents = m.residents ∧ t.ranking = m.ranking ∧
      t.counts = some m.counts ∧ t.distinct = m.distinct := by
  have hpositive : capacity ≠ 0 := Nat.one_le_iff_ne_zero.mp hcapacity
  obtain ⟨t, spelled, hadd, h⟩ :=
    (mirrors_of_no_words capacity).addAll (Miner.intact_of_no_words hcapacity) words
  refine ⟨_, t, _, if_neg hpositive, hadd, if_neg hpositive, fun w => ?_, h.isResident_eq, ?_,
    h.residents_eq, ?_, h.counts_eq, h.distinct_eq⟩
  · rw [h.count?_eq, Miner.count?_eq_seen?]
  · rw [least?, Miner.least?, h.getElem?_heap]
  · rw [ranking, Miner.ranking, h.residents_eq]

end ArrayMiner

end RepairCorpus
