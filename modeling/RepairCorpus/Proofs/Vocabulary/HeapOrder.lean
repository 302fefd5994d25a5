import Mathlib.Data.Nat.Basic
import Mathlib.Order.Basic
import RepairCorpus.Vocabulary.Miner

/-!
# The order of the heap

The two sifts put a heap in order that is out of order at a single slot.  What they start from is
`UpOrder` and `DownOrder`: every parent and child are in order but for those that the slot can
still put out, and the slot's own neighbours are in order with each other.  Each swap of a sift
passes this on to the next slot.

* `Miner.Ordered`: a parent's count is at most that of its child.
* `Miner.Ordered.least`: the front has the least count.
* `Miner.UpOrder.siftUp`, `Miner.DownOrder.siftDown`: the sifts end in order.
* `Miner.Ordered.push`, `Miner.Ordered.raise`: how their starts come about.
-/

namespace RepairCorpus.Miner

variable {m : Miner}

/-! ## Slots -/

theorem mem_residents_iff {r : Resident} : r ∈ m.residents ↔ ∃ i : Nat, m.heap[i]? = some r := by
  rw [residents, Array.mem_toList_iff, Array.mem_iff_getElem?]

theorem lt_size_of_getElem? {i : Nat} {r : Resident} (h : m.heap[i]? = some r) :
    i < m.heap.size :=
  (Array.getElem?_eq_some_iff.mp h).1

theorem countAt_of_getElem? {i : Nat} {r : Resident} (h : m.heap[i]? = some r) :
    m.countAt i = r.count := by
  simp only [countAt, h]

theorem countAt_congr {m' : Miner} {i j : Nat} (h : m'.heap[i]? = m.heap[j]?) :
    m'.countAt i = m.countAt j := by
  simp only [countAt, h]

theorem getElem?_heap_swap {i j : Nat} (hi : i < m.heap.size) (hj : j < m.heap.size) (k : Nat) :
    (m.swap i j).heap[k]?
      = if k = i then m.heap[j]? else if k = j then m.heap[i]? else m.heap[k]? := by
  rw [heap_swap, Array.swapIfInBounds_def, dif_pos hi, dif_pos hj, Array.getElem?_swap,
    Array.getElem?_eq_getElem hi, Array.getElem?_eq_getElem hj]
  by_cases hki : k = i
  · subst hki
    rw [if_pos rfl, if_pos rfl]
    split
    · next hjk => simp only [hjk]
    · rfl
  · rw [if_neg hki, if_neg (Ne.symm hki)]
    simp only [eq_comm]

theorem countAt_swap {i j : Nat} (hi : i < m.heap.size) (hj : j < m.heap.size) (k : Nat) :
    (m.swap i j).countAt k
      = if k = i then m.countAt j else if k = j then m.countAt i else m.countAt k := by
  have hslot := getElem?_heap_swap hi hj k
  by_cases hki : k = i
  · rw [if_pos hki] at hslot ⊢
    exact countAt_congr hslot
  · by_cases hkj : k = j
    · rw [if_neg hki, if_pos hkj] at hslot ⊢
      exact countAt_congr hslot
    · rw [if_neg hki, if_neg hkj] at hslot ⊢
      exact countAt_congr hslot

@[simp] theorem size_heap_swap (i j : Nat) : (m.swap i j).heap.size = m.heap.size := by
  rw [heap_swap, Array.size_swapIfInBounds]

/-! ## Steps of the sifts -/

theorem siftUp_zero (m : Miner) : m.siftUp 0 = m := by
  rw [siftUp, if_pos rfl]

theorem siftUp_of_le {i : Nat} (h : m.countAt ((i - 1) / 2) ≤ m.countAt i) : m.siftUp i = m := by
  rw [siftUp]
  split
  · rfl
  · exact if_pos h

theorem siftUp_of_not_le {i : Nat} (hi : i ≠ 0) (h : ¬ m.countAt ((i - 1) / 2) ≤ m.countAt i) :
    m.siftUp i = (m.swap i ((i - 1) / 2)).siftUp ((i - 1) / 2) := by
  rw [siftUp, if_neg hi]
  exact if_neg h

theorem siftDown_of_size_le {i : Nat} (hsize : m.heap.size ≤ 2 * i + 1) : m.siftDown i = m := by
  rw [siftDown, if_pos hsize]

theorem siftDown_of_le {i : Nat} (h : m.countAt i ≤ m.countAt (m.lesserChild i)) : m.siftDown i = m := by
  rw [siftDown]
  split
  · rfl
  · exact if_pos h

theorem siftDown_of_not_le {i : Nat} (hsize : ¬ m.heap.size ≤ 2 * i + 1)
    (h : ¬ m.countAt i ≤ m.countAt (m.lesserChild i)) :
    m.siftDown i = (m.swap i (m.lesserChild i)).siftDown (m.lesserChild i) := by
  rw [siftDown, if_neg hsize]
  exact if_neg h

/-! ## Order -/

/-- The slot `k` is a child of the slot `p`. -/
def IsChild (p k : Nat) : Prop := k = 2 * p + 1 ∨ k = 2 * p + 2

theorem IsChild.lt {p k : Nat} (h : IsChild p k) : p < k := by
  rcases h with rfl | rfl <;> omega

theorem IsChild.parent_eq {p q k : Nat} (hp : IsChild p k) (hq : IsChild q k) : p = q := by
  rcases hp with hp | hp <;> rcases hq with hq | hq <;> omega

theorem isChild_parent {i : Nat} (h : i ≠ 0) : IsChild ((i - 1) / 2) i := by
  rw [IsChild]
  omega

/-- No parent has a greater count than its child. -/
def Ordered (m : Miner) : Prop :=
  ∀ p k, IsChild p k → k < m.heap.size → m.countAt p ≤ m.countAt k

/-- The front has the least count. -/
theorem Ordered.least (h : m.Ordered) {i : Nat} (hi : i < m.heap.size) :
    m.countAt 0 ≤ m.countAt i := by
  induction i using Nat.strongRecOn with
  | ind i ih =>
    by_cases h0 : i = 0
    · rw [h0]
    · have hchild : IsChild ((i - 1) / 2) i := isChild_parent h0
      exact le_trans (ih _ hchild.lt (lt_trans hchild.lt hi)) (h _ i hchild hi)

/-! ## Towards the front -/

/-- What sifting up needs of the order: only the given slot can have a lesser count than its
parent, and its children are in order with that parent. -/
structure UpOrder (m : Miner) (i : Nat) : Prop where
  except : ∀ p k, IsChild p k → k < m.heap.size → k ≠ i → m.countAt p ≤ m.countAt k
  grand : ∀ p k, IsChild p i → IsChild i k → k < m.heap.size → m.countAt p ≤ m.countAt k

/-- A swap with the parent leaves the order needed at the parent. -/
theorem UpOrder.swap {p i : Nat} (h : m.UpOrder i) (hp : IsChild p i) (hi : i < m.heap.size)
    (hlt : m.countAt i < m.countAt p) : (m.swap i p).UpOrder p := by
  have hpi : p < i := hp.lt
  have hcount := countAt_swap hi (lt_trans hpi hi)
  refine ⟨fun q k hq hk hkp => ?_, fun q k hq hk hks => ?_⟩
  · rw [size_heap_swap] at hk
    have hqk := hq.lt
    rw [hcount, hcount, if_neg hkp]
    by_cases hki : k = i
    · subst hki
      obtain rfl := hq.parent_eq hp
      rw [if_pos rfl, if_neg (by omega), if_pos rfl]
      exact hlt.le
    · rw [if_neg hki]
      by_cases hqi : q = i
      · subst hqi
        rw [if_pos rfl]
        exact h.grand p k hp hq hk
      · rw [if_neg hqi]
        have hqk := h.except q k hq hk hki
        split
        · next hqp =>
          rw [← hqp] at hlt
          exact hlt.le.trans hqk
        · exact hqk
  · rw [size_heap_swap] at hks
    have hqp := hq.lt
    have hpk := hk.lt
    have hfront : m.countAt q ≤ m.countAt p := h.except q p hq (by omega) (by omega)
    rw [hcount, hcount, if_neg (by omega), if_neg (by omega)]
    by_cases hki : k = i
    · rw [if_pos hki]
      exact hfront
    · rw [if_neg hki, if_neg (by omega)]
      exact hfront.trans (h.except p k hk hks hki)

/-- Sifting up ends in order. -/
theorem UpOrder.siftUp {i : Nat} (h : m.UpOrder i) (hi : i < m.heap.size) :
    (m.siftUp i).Ordered := by
  induction m, i using siftUp.induct with
  | case1 m =>
    rw [siftUp_zero]
    intro p k hp hk
    have hpk := hp.lt
    exact h.except p k hp hk (by omega)
  | case2 m i hi0 parent hle =>
    rw [siftUp_of_le hle]
    intro p k hp hk
    by_cases hki : k = i
    · subst hki
      obtain rfl := hp.parent_eq (isChild_parent hi0)
      exact hle
    · exact h.except p k hp hk hki
  | case3 m i hi0 parent hle ih =>
    have hparent : IsChild parent i := isChild_parent hi0
    rw [siftUp_of_not_le hi0 hle]
    refine ih (h.swap hparent hi (not_le.mp hle)) ?_
    rw [size_heap_swap]
    exact lt_trans hparent.lt hi

/-! ## Towards the back -/

/-- What sifting down needs of the order: only the given slot can have a greater count than its
children, and these are in order with its parent. -/
structure DownOrder (m : Miner) (i : Nat) : Prop where
  except : ∀ p k, IsChild p k → k < m.heap.size → p ≠ i → m.countAt p ≤ m.countAt k
  grand : ∀ p k, IsChild p i → IsChild i k → k < m.heap.size → m.countAt p ≤ m.countAt k

theorem isChild_lesserChild (m : Miner) (i : Nat) : IsChild i (m.lesserChild i) := by
  simp only [lesserChild]
  split
  · exact Or.inr rfl
  · exact Or.inl rfl

theorem lesserChild_lt {i : Nat} (h : ¬ m.heap.size ≤ 2 * i + 1) :
    m.lesserChild i < m.heap.size := by
  simp only [lesserChild]
  split
  · next hright => exact hright.1
  · omega

/-- The lesser child has the least count among the children. -/
theorem countAt_lesserChild_le {i k : Nat} (hk : IsChild i k) (hks : k < m.heap.size) :
    m.countAt (m.lesserChild i) ≤ m.countAt k := by
  simp only [lesserChild]
  split
  · next hright =>
    rcases hk with rfl | rfl
    · exact hright.2.le
    · exact le_refl _
  · next hright =>
    rcases hk with rfl | rfl
    · exact le_refl _
    · exact not_lt.mp fun hlt => hright ⟨hks, hlt⟩

/-- A swap with the lesser child leaves the order needed at the child. -/
theorem DownOrder.swap {i c : Nat} (h : m.DownOrder i) (hc : IsChild i c) (hcs : c < m.heap.size)
    (hleast : ∀ k, IsChild i k → k < m.heap.size → m.countAt c ≤ m.countAt k)
    (hlt : m.countAt c < m.countAt i) : (m.swap i c).DownOrder c := by
  have hic : i < c := hc.lt
  have hcount := countAt_swap (lt_trans hic hcs) hcs
  refine ⟨fun p k hp hk hpc => ?_, fun p k hp hk hks => ?_⟩
  · rw [size_heap_swap] at hk
    have hpk := hp.lt
    rw [hcount, hcount]
    by_cases hpi : p = i
    · subst hpi
      rw [if_pos rfl, if_neg (by omega)]
      split
      · exact hlt.le
      · exact hleast k hp hk
    · rw [if_neg hpi, if_neg hpc]
      by_cases hki : k = i
      · subst hki
        rw [if_pos rfl]
        exact h.grand p c hp hc hcs
      · have hkc : k ≠ c := by
          rintro rfl
          exact hpi (hp.parent_eq hc)
        rw [if_neg hki, if_neg hkc]
        exact h.except p k hp hk hpi
  · rw [size_heap_swap] at hks
    have hck := hk.lt
    obtain rfl := hp.parent_eq hc
    rw [hcount, hcount, if_pos rfl, if_neg (by omega), if_neg (by omega)]
    exact h.except c k hk hks (by omega)

/-- Sifting down ends in order. -/
theorem DownOrder.siftDown {i : Nat} (h : m.DownOrder i) : (m.siftDown i).Ordered := by
  induction m, i using siftDown.induct with
  | case1 m i hsize =>
    rw [siftDown_of_size_le hsize]
    intro p k hp hk
    refine h.except p k hp hk ?_
    rintro rfl
    rcases hp with rfl | rfl <;> omega
  | case2 m i hsize child hle =>
    rw [siftDown_of_le hle]
    intro p k hp hk
    by_cases hpi : p = i
    · subst hpi
      exact hle.trans (countAt_lesserChild_le hp hk)
    · exact h.except p k hp hk hpi
  | case3 m i hsize child hle ih =>
    rw [siftDown_of_not_le hsize hle]
    exact ih (h.swap (isChild_lesserChild m i) (lesserChild_lt hsize)
      (fun k => countAt_lesserChild_le) (not_le.mp hle))

/-! ## Where sifts start -/

section Start

variable {m' : Miner} {i : Nat} (hother : ∀ k, k ≠ i → m'.heap[k]? = m.heap[k]?)

include hother

theorem lt_size_iff_of_ne {k : Nat} (hk : k ≠ i) : k < m'.heap.size ↔ k < m.heap.size := by
  rw [← not_le, ← not_le, ← Array.getElem?_eq_none_iff, ← Array.getElem?_eq_none_iff, hother k hk]

/-- A heap in order with one more resident at the back. -/
theorem Ordered.push (h : m.Ordered) (hi : i = m.heap.size) : m'.UpOrder i := by
  refine ⟨fun p k hp hk hki => ?_, fun p k hp hk hks => ?_⟩
  · rw [lt_size_iff_of_ne hother hki] at hk
    have hpk := hp.lt
    rw [countAt_congr (hother p (by omega)), countAt_congr (hother k hki)]
    exact h p k hp hk
  · have hik := hk.lt
    rw [lt_size_iff_of_ne hother (by omega)] at hks
    omega

/-- A heap in order with a greater count in one slot. -/
theorem Ordered.raise (h : m.Ordered) (hi : i < m.heap.size) (hle : m.countAt i ≤ m'.countAt i) :
    m'.DownOrder i := by
  refine ⟨fun p k hp hk hpi => ?_, fun p k hp hk hks => ?_⟩
  · rw [countAt_congr (hother p hpi)]
    by_cases hki : k = i
    · subst hki
      exact (h p k hp hi).trans hle
    · rw [lt_size_iff_of_ne hother hki] at hk
      rw [countAt_congr (hother k hki)]
      exact h p k hp hk
  · have hpi := hp.lt
    have hik := hk.lt
    rw [lt_size_iff_of_ne hother (by omega)] at hks
    rw [countAt_congr (hother p (by omega)), countAt_congr (hother k (by omega))]
    exact (h p i hp hi).trans (h i k hk hks)

end Start

end RepairCorpus.Miner
