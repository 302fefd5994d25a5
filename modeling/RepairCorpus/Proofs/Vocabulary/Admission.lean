import RepairCorpus.Proofs.Vocabulary.ArrayRecords

/-!
# Who comes into a full heap

Once there is no more room, a word that is read changes at most one resident.  Either the heap stays
as it is, or one resident makes room for another whose count is greater by exactly one: for itself
with one more occurrence, or, if it was in front, for the word that has just been read.

That the difference is one is nowhere checked.  A newcomer only has to exceed the least count, and it
may have been read any number of times while it was not a resident.  It cannot have got ahead,
because at every time before its count was at most the least count.

* `Miner.Turnover`: one resident makes room for another.
* `Miner.Exact.turnover`: what a word does to a full heap.
* `ArrayMiner.Admits`: what reading a word changes in a miner without room.
* `ArrayMiner.admission_at_capacity`: **the least count grows by one at most, and a word enters only by
  exceeding it by one**.
-/

namespace RepairCorpus

namespace Miner

variable {m m' m₁ : Miner} {word : String} {words : List String}

/-! ## One entry into a slot -/

/-- After an entry into a slot that was taken, the residents are the new one and those whose words
are not that of the old one. -/
theorem Put.mem_residents_iff {i : Nat} {r old : Resident} (h : Put m m₁ i r) (hm : m.Linked)
    (hold : m.heap[i]? = some old) {x : Resident} :
    x ∈ m₁.residents ↔ x = r ∨ x ∈ m.residents ∧ x.word ≠ old.word := by
  rw [Miner.mem_residents_iff, Miner.mem_residents_iff]
  constructor
  · rintro ⟨k, hk⟩
    by_cases hki : k = i
    · rw [hki, h.here] at hk
      exact Or.inl (Option.some.inj hk).symm
    · rw [h.elsewhere k hki] at hk
      exact Or.inr ⟨⟨k, hk⟩, fun hword => hki (hm.slot_unique hk hold hword)⟩
  · rintro (rfl | ⟨⟨k, hk⟩, hword⟩)
    · exact ⟨i, h.here⟩
    · have hki : k ≠ i := by
        rintro rfl
        rw [Option.some.inj (hk.symm.trans hold)] at hword
        exact hword rfl
      exact ⟨k, (h.elsewhere k hki).trans hk⟩

/-! ## A word and a full heap -/

/-- One resident makes room for the word that has been read: for its own with a greater count, or, in
front, for a word that was no resident. -/
structure Turnover (m m' : Miner) (word : String) (gone : Resident) : Prop where
  mem : gone ∈ m.residents
  count : (m.grown word).count = gone.count + 1
  who : gone.word = word ∨ (m.trie.markOf word).slot = none ∧ gone.count = m.countAt 0
  residents : ∀ x, x ∈ m'.residents ↔ x = m.grown word ∨ x ∈ m.residents ∧ x.word ≠ gone.word

/-- A word that is no resident has been read at most as often as the front of a full heap. -/
theorem Exact.count_markOf_le (h : m.Exact words) (hword : word ≠ "")
    (hslot : (m.trie.markOf word).slot = none) : (m.trie.markOf word).count ≤ m.countAt 0 := by
  rw [h.counted word hword]
  by_cases hmem : word ∈ words
  · exact (h.outside word hmem hword hslot).2
  · rw [List.count_eq_zero.mpr hmem]
    exact Nat.zero_le _

/-- **What a word does to a full heap.**  It is passed by, or one resident makes room for it. -/
theorem Exact.turnover (h : m.Exact words) (hfull : m.heap.size = m.capacity) (hword : word ≠ "") :
    ((m.add word).heap = m.heap ∧ (m.trie.markOf word).slot = none ∧
      (m.grown word).count ≤ m.countAt 0) ∨ ∃ gone, Turnover m (m.add word) word gone := by
  cases (h.intact.reading hword).1 with
  | stays i m₁ slot put sift =>
    obtain ⟨old, hold, hsame⟩ := h.intact.linked.placed word i slot
    have hmark := h.intact.linked.marked i old hold
    refine Or.inr ⟨old, Miner.mem_residents_iff.mpr ⟨i, hold⟩, ?_, Or.inl hsame, fun x => ?_⟩
    · rw [grown, ← hsame, hmark]
    · rw [sift.residents.mem_iff, put.mem_residents_iff h.intact.linked hold]
  | enters _ _ room => exact absurd hfull room.ne
  | replaces m₁ slot full more put sift =>
    have hleast := Array.getElem?_eq_getElem (full ▸ h.intact.positive : 0 < m.heap.size)
    have hcount := countAt_of_getElem? hleast
    have hle := h.count_markOf_le hword slot
    have hmore : m.countAt 0 < (m.trie.markOf word).count + 1 := more
    refine Or.inr ⟨_, Miner.mem_residents_iff.mpr ⟨0, hleast⟩, ?_, Or.inr ⟨slot, hcount.symm⟩,
      fun x => ?_⟩
    · rw [← hcount, grown]
      exact congrArg Nat.succ (le_antisymm hle (Nat.lt_succ_iff.mp hmore))
    · rw [sift.residents.mem_iff, put.mem_residents_iff h.intact.linked hleast]
  | passes slot full less capacity heap sorted marks => exact Or.inl ⟨heap, slot, less⟩

/-- **The least count of a full heap grows by one at most.** -/
theorem Exact.least_add_le (h : m.Exact words) (hfull : m.heap.size = m.capacity)
    (hword : word ≠ "") : (m.add word).countAt 0 ≤ m.countAt 0 + 1 := by
  rcases h.turnover hfull hword with ⟨hheap, -, -⟩ | ⟨gone, hturn⟩
  · exact (countAt_congr (by rw [hheap])).le.trans (Nat.le_succ _)
  · have hintact := (h.intact.reading hword).2
    obtain ⟨least, hleast⟩ : ∃ least, m.heap[0]? = some least :=
      ⟨_, Array.getElem?_eq_getElem (hfull ▸ h.intact.positive)⟩
    have hfront := Miner.mem_residents_iff.mpr ⟨0, hleast⟩
    have hcount := countAt_of_getElem? hleast
    by_cases hgone : least.word = gone.word
    · -- the front itself makes room, and what comes in for it is one ahead of it
      obtain ⟨i, hi⟩ := Miner.mem_residents_iff.mp hturn.mem
      obtain rfl := h.intact.linked.slot_unique hleast hi hgone
      have hnew : m.grown word ∈ (m.add word).residents := (hturn.residents _).mpr (Or.inl rfl)
      rw [countAt_of_getElem? hi, ← hturn.count]
      exact hintact.least_le hnew
    · have hstays := (hturn.residents _).mpr (Or.inr ⟨hfront, hgone⟩)
      rw [hcount]
      exact (hintact.least_le hstays).trans (Nat.le_succ _)

end Miner

namespace ArrayMiner

/-! ## In arrays -/

section Mirrors

variable {t : ArrayMiner} {m : Miner} {spelled : List (List Char)} {word : String} {cell : Nat}

/-- A word that is passed by leaves everything alone but its count. -/
theorem Mirrors.promote_of_passed (h : t.Mirrors m spelled) (hroom : 0 < m.capacity)
    (hcell : spelled[cell]? = some word.toList) (hslot : (m.trie.markOf word).slot = none)
    (hfull : m.heap.size = m.capacity) (hless : (m.trie.markOf word).count ≤ m.countAt 0) :
    t.promote word cell = some t := by
  obtain ⟨x, hx, hstands⟩ := h.arena.cell cell _ hcell
  rw [String.ofList_toList] at hstands
  have hcount : x.count.getD 0 = (m.trie.markOf word).count := by
    rw [hstands.count, Mark.getD_seen?]
  have hempty : ¬ t.heap.isEmpty = true := fun hempty => by
    rw [h.size_heap, Array.isEmpty_iff_size_eq_zero.mp hempty] at hfull
    exact hroom.ne hfull
  rw [ArrayMiner.promote, hx]
  simp only [Option.bind_eq_bind, Option.bind_some, hcount, hstands.slot, hslot, if_neg hempty,
    h.passesBy hroom, hfull, hless, and_self, decide_true, if_true]
  rfl

theorem Mirrors.heap_of_passed (h : t.Mirrors m spelled) (hm : m.Intact) (hword : word ≠ "")
    (hslot : (m.trie.markOf word).slot = none) (hfull : m.heap.size = m.capacity)
    (hless : (m.grown word).count ≤ m.countAt 0) {t' : ArrayMiner} (hadd : t.add word = some t') :
    t'.heap = t.heap := by
  obtain ⟨t₁, words', cell, heq, hheap, h₁, hcell⟩ := h.add_eq_promote hm hword
  have hmark := hm.linked.markOf_tally hword word
  rw [if_pos rfl, hslot] at hmark
  have hpassed := h₁.promote_of_passed hm.positive hcell (by rw [hmark]) hfull
    (by rw [hmark]; exact hless)
  rw [heq, hpassed] at hadd
  rw [← Option.some.inj hadd, hheap]

end Mirrors

/-- The words of the residents. -/
def residentWords (t : ArrayMiner) : List String := t.residents.map Resident.word

/-- The least count of a resident, if there is one. -/
def leastCount? (t : ArrayMiner) : Option Nat := (t.residents.map Resident.count).min?

section Mirrors

variable {t : ArrayMiner} {m m' : Miner} {spelled : List (List Char)} {words : List String}
  {word w : String}

theorem Mirrors.mem_residentWords_iff (h : t.Mirrors m spelled) :
    w ∈ t.residentWords ↔ ∃ r ∈ m.residents, r.word = w := by
  rw [residentWords, h.residents_eq, List.mem_map]

theorem Mirrors.notMem_residentWords_iff (h : t.Mirrors m spelled) (hm : m.Linked) :
    w ∉ t.residentWords ↔ (m.trie.markOf w).slot = none := by
  rw [h.mem_residentWords_iff, hm.slot_eq_none_iff]
  simp only [not_exists, not_and]

/-- The least count is that of the front. -/
theorem Mirrors.leastCount?_eq (h : t.Mirrors m spelled) (hm : m.Intact)
    (hfull : m.heap.size = m.capacity) : t.leastCount? = some (m.countAt 0) := by
  have hleast := Array.getElem?_eq_getElem (hfull ▸ hm.positive : 0 < m.heap.size)
  rw [leastCount?, h.residents_eq, List.min?_eq_some_iff]
  refine ⟨?_, fun n hn => ?_⟩
  · rw [Miner.countAt_of_getElem? hleast]
    exact List.mem_map_of_mem (Miner.mem_residents_iff.mpr ⟨0, hleast⟩)
  · obtain ⟨r, hr, rfl⟩ := List.mem_map.mp hn
    exact hm.least_le hr

/-- If a word takes its own place, the words of the residents stay the same; otherwise it takes the
place of a resident of least count. -/
theorem Mirrors.residentWords_of_turnover {t' : ArrayMiner} {spelled' : List (List Char)}
    (h : t.Mirrors m spelled) (h' : t'.Mirrors m' spelled') (hm : m.Linked) {gone : Resident}
    (hturn : m.Turnover m' word gone) :
    (∀ v, v ∈ t'.residentWords ↔ v ∈ t.residentWords) ∨
      gone.count = m.countAt 0 ∧ word ∉ t.residentWords ∧
        ∀ v, v ∈ t'.residentWords ↔ v = word ∨ v ∈ t.residentWords ∧ v ≠ gone.word := by
  have hwords : ∀ v, v ∈ t'.residentWords ↔ v = word ∨ v ∈ t.residentWords ∧ v ≠ gone.word := by
    intro v
    rw [h'.mem_residentWords_iff, h.mem_residentWords_iff]
    constructor
    · rintro ⟨x, hx, rfl⟩
      rcases (hturn.residents x).mp hx with rfl | ⟨hold, hne⟩
      · exact Or.inl rfl
      · exact Or.inr ⟨⟨x, hold, rfl⟩, hne⟩
    · rintro (rfl | ⟨⟨x, hold, rfl⟩, hne⟩)
      · exact ⟨m.grown v, (hturn.residents _).mpr (Or.inl rfl), rfl⟩
      · exact ⟨x, (hturn.residents x).mpr (Or.inr ⟨hold, hne⟩), rfl⟩
  rcases hturn.who with hsame | ⟨hslot, hcount⟩
  · refine Or.inl fun v => ?_
    have hin : word ∈ t.residentWords := h.mem_residentWords_iff.mpr ⟨gone, hturn.mem, hsame⟩
    rw [hwords, hsame]
    constructor
    · rintro (rfl | hv)
      · exact hin
      · exact hv.1
    · intro hv
      exact (eq_or_ne v word).imp_right fun hne => ⟨hv, hne⟩
  · exact Or.inr ⟨hcount, (h.notMem_residentWords_iff hm).mpr hslot, hwords⟩

end Mirrors

/-- `Admits t t' w least least' count` holds if reading a word makes `t'` of a miner without room, where the
word has a count and the least count of a resident was `least` and is `least'`. -/
structure Admits (t t' : ArrayMiner) (w : String) (least least' count : Nat) : Prop where
  added : t.add w = some t'
  counted : t'.count? w = some (some count)
  before : t.leastCount? = some least
  after : t'.leastCount? = some least'
  /-- The least count stays as it was or becomes greater by one. -/
  grows : least' = least ∨ least' = least + 1
  /-- The residents stay the same, or one of least count leaves and the word enters with a count that is
  greater by one. -/
  turnover : (∀ v, v ∈ t'.residentWords ↔ v ∈ t.residentWords) ∨
    ∃ gone ∈ t.residents, gone.count = least ∧ count = least + 1 ∧ w ∉ t.residentWords ∧
      ∀ v, v ∈ t'.residentWords ↔ v = w ∨ v ∈ t.residentWords ∧ v ≠ gone.word
  /-- A word that is no resident and does not exceed the least count leaves the heap alone. -/
  passed : w ∉ t.residentWords → count ≤ least → t'.heap = t.heap

/-- **Admission at capacity is minimal and monotone**, whatever has been read before. -/
theorem admission_at_capacity {capacity : Nat} (hcapacity : 1 ≤ capacity) :
    ∃ start, new capacity = .ok start ∧ ∀ words t, start.addAll words = some t →
      t.residents.length = capacity → ∀ w, w ≠ "" →
        ∃ t' least least' count, t.Admits t' w least least' count := by
  refine ⟨_, if_neg (Nat.one_le_iff_ne_zero.mp hcapacity), fun words t hadd hlen w hw => ?_⟩
  obtain ⟨t₀, m, spelled, hadd₀, h, hm, hcap⟩ := exists_mirrors hcapacity words
  obtain rfl : t = t₀ := Option.some.inj (hadd.symm.trans hadd₀)
  have hfull : m.heap.size = m.capacity := by
    rw [h.residents_eq] at hlen
    exact hlen.trans hcap.symm
  obtain ⟨hreading, hintact⟩ := hm.intact.reading hw
  obtain ⟨t', spelled', hadd', h'⟩ := h.add hm.intact w
  have hcount : t'.count? w = some (some (m.grown w).count) := by
    have hpositive : (m.grown w).count ≠ 0 := Nat.succ_ne_zero _
    rw [h'.count?_eq, Mark.seen?, hreading.count_markOf, if_pos rfl, if_neg hpositive]
  have hleast : (m.add w).countAt 0 = m.countAt 0 ∨ (m.add w).countAt 0 = m.countAt 0 + 1 := by
    have hge := hreading.least_le hm.intact hfull
    have hle := hm.least_add_le hfull hw
    omega
  have hturnover : (∀ v, v ∈ t'.residentWords ↔ v ∈ t.residentWords) ∨
      ∃ gone ∈ t.residents, gone.count = m.countAt 0 ∧ (m.grown w).count = m.countAt 0 + 1 ∧
        w ∉ t.residentWords ∧ ∀ v, v ∈ t'.residentWords ↔ v = w ∨ v ∈ t.residentWords ∧ v ≠ gone.word := by
    rcases hm.turnover hfull hw with ⟨hheap, -, -⟩ | ⟨gone, hturn⟩
    · refine Or.inl fun v => ?_
      rw [h'.mem_residentWords_iff, h.mem_residentWords_iff, Miner.residents, hheap]
      rfl
    · refine (h.residentWords_of_turnover h' hm.intact.linked hturn).imp_right ?_
      rintro ⟨hcount, hout, hwords⟩
      refine ⟨gone, h.residents_eq ▸ hturn.mem, hcount, ?_, hout, hwords⟩
      rw [hturn.count, hcount]
  exact ⟨t', _, _, _, {
    added := hadd'
    counted := hcount
    before := h.leastCount?_eq hm.intact hfull
    after := h'.leastCount?_eq hintact (hreading.full hm.intact hfull)
    grows := hleast
    turnover := hturnover
    passed := fun hout hle =>
      h.heap_of_passed hm.intact hw ((h.notMem_residentWords_iff hm.intact.linked).mp hout) hfull hle hadd' }⟩

/-- One place for two words that have been read twice each.  Whichever of them is in it, reading one of
them again leaves a least count of two or makes it three. -/
theorem admission_at_capacity_one_place : 1 ≤ 1 ∧ ∃ start, new 1 = .ok start ∧
    ∃ t, start.addAll ["a", "b", "b", "a"] = some t ∧ t.residents.length = 1 ∧
      ∃ t', t.add "a" = some t' ∧ t.leastCount? = some 2 ∧
        (t'.leastCount? = some 2 ∨ t'.leastCount? = some 3) := by
  obtain ⟨start, hstart, hall⟩ := admission_at_capacity (show 1 ≤ 1 by decide)
  obtain ⟨t, m, spelled, hadd, h, hm, hcap⟩ :=
    exists_mirrors (show 1 ≤ 1 by decide) ["a", "b", "b", "a"]
  obtain rfl : start = ⟨1, .empty, #[]⟩ := Except.ok.inj hstart.symm
  have hlen : t.residents.length = 1 := by
    rw [h.residents_eq, hm.length_residents, hcap]
    decide
  obtain ⟨t', least, least', count, hadmits⟩ := hall _ t hadd hlen "a" (by decide)
  have htwo : least = 2 := by
    obtain ⟨hmem, -⟩ := List.min?_eq_some_iff.mp hadmits.before
    obtain ⟨r, hr, rfl⟩ := List.mem_map.mp hmem
    obtain ⟨hseen, hcount⟩ := hm.resident (h.residents_eq ▸ hr)
    have htwice : ∀ w ∈ distinctWords ["a", "b", "b", "a"], ["a", "b", "b", "a"].count w = 2 := by
      decide
    exact hcount.trans (htwice _ hseen)
  subst htwo
  refine ⟨by decide, _, hstart, t, hadd, hlen, t', hadmits.added, hadmits.before, ?_⟩
  rw [hadmits.after]
  exact hadmits.grows.imp (congrArg some) (congrArg some)

end ArrayMiner

end RepairCorpus
