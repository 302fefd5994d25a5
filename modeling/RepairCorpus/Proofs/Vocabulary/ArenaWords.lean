import Mathlib.Data.List.Induction
import Mathlib.Data.List.Nodup
import Mathlib.Logic.Function.Basic
import Mathlib.Order.Nat
import RepairCorpus.Proofs.Vocabulary.Listings
import RepairCorpus.Vocabulary.Arena

/-!
# The words of an array of cells

The cells of a trie in an array are reached over the indices that other cells know, and nothing in the
array itself says that a cell is reached on one way only or at all.  What keeps it in shape is a list of
words beside it, one for each cell: the word of the root is empty, no two words are the same, and with a
word its beginning is there too.  A cell then has a child with a letter exactly if its word with that
letter behind it is in the list, and the child's index is the place of that word.

Making a cell puts its word at the end of the list.  So every index keeps its word, and what is known of
the words does not change, since nothing is known of a word that has just been made.

* `Arena.Holds`: a trie has a list of words, and its cells know of them what they should.
* `Arena.Holds.spell`: **spelling a word ends at the cell of that word** and makes it if it is missing.
* `Arena.Holds.update`: what a cell knows is changed for its word only.
* `Arena.Holds.find_eq_iff`, `Arena.Holds.ask`: **each word is looked up at its own cell**.
-/

namespace RepairCorpus

variable {words words' : List (List Char)} {cs es : List Char} {c : Char} {mark : Mark}

/-- What a cell is that stands for some letters among the words of a trie. -/
structure Cell.Stands (x : Cell) (words : List (List Char)) (cs : List Char) (mark : Mark) : Prop where
  letter : x.letter = cs.getLast?
  count : x.count = mark.seen?
  slot : x.slot = mark.slot
  child : ∀ c j, x.children[c]? = some j ↔ words[j]? = some (cs ++ [c])

/-- An index that is looked up after something was put at the back. -/
theorem getElem?_concat_iff {w : List Char} {i : Nat} :
    (words ++ [w])[i]? = some cs ↔ words[i]? = some cs ∨ (i = words.length ∧ w = cs) := by
  rw [List.getElem?_append]
  by_cases hi : i < words.length
  · rw [if_pos hi]
    exact (or_iff_left fun h => absurd h.1 hi.ne).symm
  · rw [if_neg hi, List.getElem?_singleton, List.getElem?_eq_none (not_lt.mp hi)]
    rw [Option.ite_none_right_eq_some, Option.some.injEq, or_iff_right (Option.some_ne_none cs).symm]
    exact and_congr_left fun _ => by omega

namespace Cell.Stands

variable {x : Cell} {ds : List Char}

theorem seen (h : x.Stands words cs mark) : x.seen.Stands words cs ⟨mark.count + 1, mark.slot⟩ := by
  refine ⟨h.letter, ?_, h.slot, h.child⟩
  rw [Cell.seen, h.count, Mark.seen?, Mark.seen?, if_neg (Nat.succ_ne_zero _)]
  by_cases hcount : mark.count = 0
  · rw [if_pos hcount, hcount]
  · rw [if_neg hcount]

theorem placed (h : x.Stands words cs mark) (slot : Option Nat) :
    (x.placed slot).Stands words cs ⟨mark.count, slot⟩ :=
  ⟨h.letter, h.count, rfl, h.child⟩

/-- A word at the end of the list is no matter for a cell if it does not go on from the cell's letters. -/
theorem concat (h : x.Stands words cs mark) (hne : ds ≠ cs) (c : Char) :
    x.Stands (words ++ [ds ++ [c]]) cs mark := by
  refine ⟨h.letter, h.count, h.slot, fun d j => ?_⟩
  rw [getElem?_concat_iff, List.append_singleton_inj, ← h.child]
  exact (or_iff_left fun hnew => hne hnew.2.1).symm

/-- A cell that adopts stands for its letters after its child's word is put at the end of the list. -/
theorem adopt (h : x.Stands words cs mark) (hc : cs ++ [c] ∉ words) :
    (x.adopt c words.length).Stands (words ++ [cs ++ [c]]) cs mark := by
  refine ⟨h.letter, h.count, h.slot, fun d j => ?_⟩
  rw [getElem?_concat_iff, List.append_singleton_inj, Cell.adopt, Std.HashMap.getElem?_insert, ← h.child]
  by_cases hcd : c = d
  · subst hcd
    have hnone : x.children[c]? ≠ some j := fun hj =>
      hc (List.mem_iff_getElem?.mpr ⟨j, (h.child c j).mp hj⟩)
    rw [if_pos (beq_self_eq_true c), or_iff_right hnone, Option.some.injEq, eq_comm (a := j)]
    exact (and_iff_left ⟨rfl, rfl⟩).symm
  · rw [if_neg fun hbeq => hcd (beq_iff_eq.mp hbeq)]
    exact (or_iff_left fun hnew => hcd hnew.2.2).symm

/-- A fresh cell stands for the word at the end of the list if no word goes on from it. -/
theorem fresh (hends : ∀ d, cs ++ [c] ++ [d] ∉ words) :
    (Cell.fresh (some c)).Stands (words ++ [cs ++ [c]]) (cs ++ [c]) .blank := by
  refine ⟨List.getLast?_concat.symm, rfl, rfl, fun d j => iff_of_false ?_ fun hj => ?_⟩
  · rw [Cell.fresh, Std.HashMap.getElem?_empty]
    exact (Option.some_ne_none j).symm
  · rcases getElem?_concat_iff.mp hj with hj | ⟨-, hj⟩
    · exact hends d (List.mem_iff_getElem?.mpr ⟨j, hj⟩)
    · exact List.cons_ne_nil d [] (List.self_eq_append_right.mp hj)

end Cell.Stands

namespace Arena

/-- A trie has a list of words, one for each cell, and what it knows of the words is known. -/
structure Holds (a : Arena) (words : List (List Char)) (known : List Char → Mark) : Prop where
  size : words.length = a.cells.size
  root : words[0]? = some []
  nodup : words.Nodup
  closed : ∀ cs c, cs ++ [c] ∈ words → cs ∈ words
  cell : ∀ (i : Nat) cs, words[i]? = some cs →
    ∃ x : Cell, a.cells[i]? = some x ∧ x.Stands words cs (known cs)
  unknown : ∀ cs, cs ∉ words → known cs = .blank

theorem holds_empty : empty.Holds [[]] fun _ => .blank := by
  refine ⟨rfl, rfl, List.nodup_singleton [], fun cs c h => ?_, fun i cs hi => ?_, fun _ _ => rfl⟩
  · exact absurd (List.mem_singleton.mp h) (List.append_ne_nil_of_right_ne_nil cs (List.cons_ne_nil c []))
  · obtain ⟨rfl, hcs⟩ : i = 0 ∧ [] = cs := by simpa [List.getElem?_singleton] using hi
    subst hcs
    refine ⟨.fresh none, rfl, rfl, rfl, rfl, fun c j => ?_⟩
    simp [Cell.fresh, List.getElem?_singleton]

namespace Holds

variable {a : Arena} {known : List Char → Mark} {i j : Nat}

theorem index_unique (h : a.Holds words known) (hi : words[i]? = some cs) (hj : words[j]? = some cs) :
    i = j :=
  (List.getElem?_inj (List.getElem?_eq_some_iff.mp hi).1 h.nodup).mp (hi.trans hj.symm)

theorem lt_size (h : a.Holds words known) (hi : words[i]? = some cs) : i < a.cells.size :=
  h.size ▸ (List.getElem?_eq_some_iff.mp hi).1

/-- With a word all of its beginnings are there. -/
theorem mem_of_append_mem (h : a.Holds words known) (hmem : cs ++ es ∈ words) : cs ∈ words := by
  induction es using List.reverseRecOn with
  | nil => rwa [List.append_nil] at hmem
  | append_singleton es e ih =>
    rw [← List.append_assoc] at hmem
    exact ih (h.closed _ e hmem)

/-! ## Changing a cell -/

/-- **What a cell knows is changed for its word only.** -/
theorem update (h : a.Holds words known) (hi : words[i]? = some cs) {f : Cell → Cell}
    (hf : ∀ x : Cell, x.Stands words cs (known cs) → (f x).Stands words cs mark) :
    ∃ a', a.update i f = some a' ∧ a'.Holds words (Function.update known cs mark) := by
  obtain ⟨x, hx, hstands⟩ := h.cell i cs hi
  refine ⟨⟨a.cells.setIfInBounds i (f x)⟩, ?_, ?_⟩
  · rw [Arena.update, hx]
    rfl
  · refine ⟨h.size.trans Array.size_setIfInBounds.symm, h.root, h.nodup, h.closed, fun k ds hk => ?_,
      fun ds hds => ?_⟩
    · by_cases hki : i = k
      · subst hki
        obtain rfl : cs = ds := Option.some.inj (hi.symm.trans hk)
        rw [Function.update_self]
        refine ⟨f x, ?_, hf x hstands⟩
        rw [Array.getElem?_setIfInBounds, if_pos rfl, if_pos (h.lt_size hi)]
      · have hne : ds ≠ cs := by
          rintro rfl
          exact hki (h.index_unique hi hk)
        rw [Function.update_of_ne hne, Array.getElem?_setIfInBounds, if_neg hki]
        exact h.cell k ds hk
    · rw [Function.update_of_ne, h.unknown ds hds]
      rintro rfl
      exact hds (List.mem_iff_getElem?.mpr ⟨i, hi⟩)

/-! ## Spelling -/

/-- Making a child puts its word at the end of the list. -/
theorem extend_of_notMem (h : a.Holds words known) (hi : words[i]? = some cs) (hc : cs ++ [c] ∉ words)
    {x : Cell} (hx : a.cells[i]? = some x) :
    Holds ⟨(a.cells.push (.fresh (some c))).setIfInBounds i (x.adopt c a.cells.size)⟩
      (words ++ [cs ++ [c]]) known := by
  have hmem : cs ∈ words := List.mem_iff_getElem?.mpr ⟨i, hi⟩
  refine ⟨?_, getElem?_concat_iff.mpr (Or.inl h.root), ?_, fun ds d hd => ?_, fun k ds hk => ?_,
    fun ds hds => h.unknown ds fun hold => hds (List.mem_append_left _ hold)⟩
  · rw [List.length_append, h.size, Array.size_setIfInBounds, Array.size_push, List.length_singleton]
  · rw [← List.concat_eq_append]
    exact h.nodup.concat hc
  · rcases List.mem_append.mp hd with hold | hnew
    · exact List.mem_append_left _ (h.closed ds d hold)
    · obtain ⟨rfl, -⟩ := List.append_singleton_inj.mp (List.mem_singleton.mp hnew)
      exact List.mem_append_left _ hmem
  · rw [Array.getElem?_setIfInBounds, Array.size_push, Array.getElem?_push, ← h.size]
    have hilt := (List.getElem?_eq_some_iff.mp hi).1
    rcases getElem?_concat_iff.mp hk with hk | ⟨rfl, rfl⟩
    · have hklt := (List.getElem?_eq_some_iff.mp hk).1
      obtain ⟨y, hy, hstands⟩ := h.cell k ds hk
      by_cases hik : i = k
      · subst hik
        obtain rfl : cs = ds := Option.some.inj (hi.symm.trans hk)
        cases hx.symm.trans hy
        rw [if_pos rfl, if_pos (Nat.lt_succ_of_lt hilt)]
        exact ⟨_, rfl, hstands.adopt hc⟩
      · have hne : cs ≠ ds := by
          rintro rfl
          exact hik (h.index_unique hi hk)
        rw [if_neg hik, if_neg hklt.ne]
        exact ⟨y, hy, hstands.concat hne c⟩
    · rw [if_neg hilt.ne, if_pos rfl, h.unknown _ hc]
      exact ⟨_, rfl, .fresh fun d hd => hc (h.closed _ d hd)⟩

/-- A child is found or made. -/
theorem extend (h : a.Holds words known) (hi : words[i]? = some cs) (c : Char) :
    ∃ j a' words', a.extend i c = some (j, a') ∧ a'.Holds words' known ∧ words <+: words' ∧
      words'[j]? = some (cs ++ [c]) := by
  obtain ⟨x, hx, hstands⟩ := h.cell i cs hi
  rw [Arena.extend, hx]
  cases hchild : x.children[c]? with
  | some j =>
    refine ⟨j, a, words, ?_, h, List.prefix_rfl, (hstands.child c j).mp hchild⟩
    simp only [Option.bind_eq_bind, Option.bind_some, hchild]
    rfl
  | none =>
    have hc : cs ++ [c] ∉ words := fun hmem => by
      obtain ⟨j, hj⟩ := List.mem_iff_getElem?.mp hmem
      rw [(hstands.child c j).mpr hj] at hchild
      exact Option.some_ne_none j hchild
    have hx' : (a.cells.push (.fresh (some c)))[i]? = some x := by
      rw [Array.getElem?_push, if_neg (h.lt_size hi).ne, hx]
    refine ⟨a.cells.size, _, words ++ [cs ++ [c]], ?_, h.extend_of_notMem hi hc hx,
      List.prefix_append _ _, ?_⟩
    · simp only [Option.bind_eq_bind, Option.bind_some, hchild, Arena.update, hx']
      rfl
    · rw [← h.size, List.getElem?_concat_length]

theorem getElem?_of_extends (hwords : words <+: words') (hi : words[i]? = some cs) :
    words'[i]? = some cs := by
  obtain ⟨more, rfl⟩ := hwords
  rw [List.getElem?_append_left (List.getElem?_eq_some_iff.mp hi).1, hi]

/-- **Spelling a word ends at the cell of that word.** -/
theorem spell (h : a.Holds words known) (hi : words[i]? = some cs) (es : List Char) :
    ∃ j a' words', a.spell i es = some (j, a') ∧ a'.Holds words' known ∧ words <+: words' ∧
      words'[j]? = some (cs ++ es) := by
  induction es generalizing a words i cs with
  | nil =>
    refine ⟨i, a, words, rfl, h, List.prefix_rfl, ?_⟩
    rw [List.append_nil, hi]
  | cons e es ih =>
    obtain ⟨j, a₁, words₁, hextend, h₁, hwords₁, hj⟩ := h.extend hi e
    obtain ⟨k, a₂, words₂, hspell, h₂, hwords₂, hk⟩ := ih h₁ hj
    rw [List.append_assoc, List.singleton_append] at hk
    refine ⟨k, a₂, words₂, ?_, h₂, hwords₁.trans hwords₂, hk⟩
    rw [Arena.spell, hextend]
    exact hspell

/-! ## Looking up -/

theorem findFrom (h : a.Holds words known) (hi : words[i]? = some cs) (es : List Char) :
    ∃ k, a.findFrom i es = some k ∧ ∀ j, k = some j ↔ words[j]? = some (cs ++ es) := by
  induction es generalizing i cs with
  | nil =>
    refine ⟨some i, rfl, fun j => ?_⟩
    rw [List.append_nil, Option.some.injEq]
    exact ⟨fun hij => hij ▸ hi, fun hj => h.index_unique hi hj⟩
  | cons e es ih =>
    obtain ⟨x, hx, hstands⟩ := h.cell i cs hi
    have hsplit : cs ++ e :: es = (cs ++ [e]) ++ es := by
      rw [List.append_assoc, List.singleton_append]
    rw [Arena.findFrom, hx, hsplit]
    cases hchild : x.children[e]? with
    | some j =>
      obtain ⟨k, hfind, hk⟩ := ih ((hstands.child e j).mp hchild)
      refine ⟨k, ?_, hk⟩
      simp only [Option.bind_eq_bind, Option.bind_some, hchild]
      exact hfind
    | none =>
      refine ⟨none, ?_, fun j => iff_of_false (Option.some_ne_none j).symm fun hj => ?_⟩
      · simp only [Option.bind_eq_bind, Option.bind_some, hchild]
        rfl
      · obtain ⟨l, hl⟩ := List.mem_iff_getElem?.mp (h.mem_of_append_mem (List.mem_iff_getElem?.mpr ⟨j, hj⟩))
        rw [(hstands.child e l).mpr hl] at hchild
        exact Option.some_ne_none l hchild

/-- **Each word is looked up at its own cell.** -/
theorem find_eq_iff (h : a.Holds words known) {w : String} :
    a.find w = some (some j) ↔ words[j]? = some w.toList := by
  obtain ⟨k, hfind, hk⟩ := h.findFrom h.root w.toList
  rw [Arena.find, Arena.root, hfind, Option.some.injEq, hk j, List.nil_append]

/-- A question is answered from what is known of the word. -/
theorem ask (h : a.Holds words known) {α : Type} {f : Cell → Option α} {g : Mark → Option α}
    (hf : ∀ (x : Cell) cs mark, x.Stands words cs mark → f x = g mark) (hblank : g .blank = none)
    (w : String) : a.ask f w = some (g (known w.toList)) := by
  obtain ⟨k, hfind, hk⟩ := h.findFrom h.root w.toList
  rw [List.nil_append] at hk
  rw [Arena.ask, Arena.find, Arena.root, hfind]
  cases k with
  | some j =>
    obtain ⟨x, hx, hstands⟩ := h.cell j _ ((hk j).mp rfl)
    simp only [Option.bind_eq_bind, Option.bind_some, hx, hf x _ _ hstands]
    rfl
  | none =>
    have hout : w.toList ∉ words := fun hmem => by
      obtain ⟨j, hj⟩ := List.mem_iff_getElem?.mp hmem
      exact Option.some_ne_none j ((hk j).mpr hj).symm
    rw [h.unknown _ hout, hblank]
    rfl

end Holds

end Arena

end RepairCorpus
