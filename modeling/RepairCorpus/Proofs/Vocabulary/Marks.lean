import Mathlib.Data.Char
import RepairCorpus.Vocabulary.Trie

/-!
# The trie as a map

Looking up a word after a change gives the changed mark for that word and the old one for every
other.  This needs the letters of siblings to ascend: a lookup that meets a branch without the
right letter goes on beside it, but a change stops there as soon as the letter is too late.

* `Trie.Sorted`: the letters of siblings ascend, everywhere.
* `Trie.find_change`, `Trie.markOf_modify`: lookups after a change.
* `Trie.Sorted.change`, `Trie.Sorted.modify`: changes keep the order.
-/

namespace RepairCorpus.Trie

/-! ## Sorted tries -/

/-- All first letters come after a given letter. -/
def Above (c : Char) : Trie → Prop
  | .empty => True
  | .branch d _ _ beside => c < d ∧ beside.Above c

/-- The letters of siblings ascend. -/
def Sorted : Trie → Prop
  | .empty => True
  | .branch d _ below beside => below.Sorted ∧ beside.Sorted ∧ beside.Above d

theorem Above.empty (c : Char) : Trie.empty.Above c := trivial

theorem Sorted.empty : Trie.empty.Sorted := trivial

theorem Above.of_lt {c d : Char} {t : Trie} (h : t.Above d) (hcd : c < d) : t.Above c := by
  induction t with
  | empty => trivial
  | branch e mark below beside _ ih => exact ⟨lt_trans hcd h.1, ih h.2⟩

/-! ## Looking up -/

@[simp] theorem find_empty (c : Char) (cs : List Char) : Trie.empty.find c cs = .blank := by
  rw [find]

theorem find_branch_nil (d : Char) (mark : Mark) (below beside : Trie) :
    (branch d mark below beside).find d [] = mark := by
  rw [find, if_pos rfl]

theorem find_branch_cons (d : Char) (mark : Mark) (below beside : Trie) (c : Char)
    (cs : List Char) : (branch d mark below beside).find d (c :: cs) = below.find c cs := by
  rw [find, if_pos rfl]

theorem find_branch_of_ne {d e : Char} (h : e ≠ d) (mark : Mark) (below beside : Trie)
    (es : List Char) : (branch d mark below beside).find e es = beside.find e es := by
  cases es with
  | nil => rw [find, if_neg h]
  | cons e' es => rw [find, if_neg h]

/-- No word begins with a letter before all first letters. -/
theorem Above.find {c : Char} {t : Trie} (h : t.Above c) (cs : List Char) :
    t.find c cs = .blank := by
  induction t with
  | empty => exact find_empty c cs
  | branch d mark below beside _ ih =>
    rw [find_branch_of_ne (ne_of_lt h.1)]
    exact ih h.2

/-! ## Changes, by where the first letter belongs -/

theorem change_branch_of_lt {c d : Char} (h : c < d) (f : Mark → Mark) (mark : Mark)
    (below beside : Trie) (cs : List Char) : (branch d mark below beside).change f c cs
      = spell (f .blank) (branch d mark below beside) c cs := by
  cases cs with
  | nil => rw [change, if_neg (ne_of_lt h), if_pos h]
  | cons c' cs => rw [change, if_neg (ne_of_lt h), if_pos h]

theorem change_branch_of_gt {c d : Char} (h : d < c) (f : Mark → Mark) (mark : Mark)
    (below beside : Trie) (cs : List Char) : (branch d mark below beside).change f c cs
      = branch d mark below (beside.change f c cs) := by
  cases cs with
  | nil => rw [change, if_neg (ne_of_lt h).symm, if_neg (lt_asymm h)]
  | cons c' cs => rw [change, if_neg (ne_of_lt h).symm, if_neg (lt_asymm h)]

theorem change_branch_nil (f : Mark → Mark) (d : Char) (mark : Mark) (below beside : Trie) :
    (branch d mark below beside).change f d [] = branch d (f mark) below beside := by
  rw [change, if_pos rfl]

theorem change_branch_cons (f : Mark → Mark) (d : Char) (mark : Mark) (below beside : Trie)
    (c : Char) (cs : List Char) : (branch d mark below beside).change f d (c :: cs)
      = branch d mark (below.change f c cs) beside := by
  rw [change, if_pos rfl]

/-! ## Looking up after a change -/

/-- A word that is spelled in front of later ones is the only one that is added. -/
theorem find_spell {c : Char} {beside : Trie} (h : beside.Above c) (mark : Mark) (cs : List Char)
    (e : Char) (es : List Char) : (spell mark beside c cs).find e es
      = if e = c ∧ es = cs then mark else beside.find e es := by
  induction cs generalizing c beside e es with
  | nil =>
    rw [spell]
    by_cases hec : e = c
    · subst hec
      cases es with
      | nil => rw [find_branch_nil, if_pos ⟨rfl, rfl⟩]
      | cons e' es =>
        rw [find_branch_cons, find_empty, if_neg (fun h => List.cons_ne_nil _ _ h.2), h.find]
    · rw [find_branch_of_ne hec, if_neg (fun h => hec h.1)]
  | cons c' cs ih =>
    rw [spell]
    by_cases hec : e = c
    · subst hec
      cases es with
      | nil => rw [find_branch_nil, if_neg (fun h => (List.cons_ne_nil _ _).symm h.2), h.find]
      | cons e' es =>
        rw [find_branch_cons, ih (Above.empty c'), find_empty, h.find]
        simp only [List.cons.injEq, true_and]
    · rw [find_branch_of_ne hec, if_neg (fun h => hec h.1)]

/-- **A change is a change of one mark**, in a sorted trie. -/
theorem find_change {t : Trie} (h : t.Sorted) (f : Mark → Mark) (c : Char) (cs : List Char)
    (e : Char) (es : List Char) : (t.change f c cs).find e es
      = if e = c ∧ es = cs then f (t.find c cs) else t.find e es := by
  induction t generalizing c cs e es with
  | empty => exact find_spell (Above.empty c) _ _ _ _
  | branch d mark below beside ihBelow ihBeside =>
    obtain ⟨hbelow, hbeside, habove⟩ := h
    rcases lt_trichotomy c d with hcd | rfl | hdc
    · -- the letter is missing, and its branch goes in front
      have hfront : (branch d mark below beside).Above c := ⟨hcd, habove.of_lt hcd⟩
      rw [change_branch_of_lt hcd, find_spell hfront, hfront.find]
    · by_cases hec : e = c
      · subst hec
        cases cs with
        | nil =>
          rw [change_branch_nil]
          cases es with
          | nil => rw [find_branch_nil, find_branch_nil, if_pos ⟨rfl, rfl⟩]
          | cons e' es =>
            rw [find_branch_cons, find_branch_cons, if_neg (fun h => List.cons_ne_nil _ _ h.2)]
        | cons c' cs =>
          rw [change_branch_cons, find_branch_cons]
          cases es with
          | nil =>
            rw [find_branch_nil, find_branch_nil, if_neg (fun h => (List.cons_ne_nil _ _).symm h.2)]
          | cons e' es =>
            rw [find_branch_cons, find_branch_cons, ihBelow hbelow]
            simp only [List.cons.injEq, true_and]
      · rw [if_neg (fun h => hec h.1), find_branch_of_ne hec]
        cases cs with
        | nil => rw [change_branch_nil, find_branch_of_ne hec]
        | cons c' cs => rw [change_branch_cons, find_branch_of_ne hec]
    · -- the letter is missing or comes later
      have hcd : c ≠ d := (ne_of_lt hdc).symm
      rw [change_branch_of_gt hdc, find_branch_of_ne hcd]
      by_cases hed : e = d
      · subst hed
        rw [if_neg (fun h => hcd h.1.symm)]
        cases es with
        | nil => rw [find_branch_nil, find_branch_nil]
        | cons e' es => rw [find_branch_cons, find_branch_cons]
      · rw [find_branch_of_ne hed, find_branch_of_ne hed, ihBeside hbeside]

/-! ## Changes keep the order -/

theorem Above.spell {b c : Char} {beside : Trie} (h : beside.Above b) (hbc : b < c) (mark : Mark)
    (cs : List Char) : (spell mark beside c cs).Above b := by
  cases cs with
  | nil => exact ⟨hbc, h⟩
  | cons c' cs => exact ⟨hbc, h⟩

theorem Above.change {b c : Char} {t : Trie} (h : t.Above b) (hbc : b < c) (f : Mark → Mark)
    (cs : List Char) : (t.change f c cs).Above b := by
  induction t with
  | empty => exact (Above.empty b).spell hbc _ cs
  | branch d mark below beside _ ih =>
    rcases lt_trichotomy c d with hcd | rfl | hdc
    · rw [change_branch_of_lt hcd]
      exact h.spell hbc _ cs
    · cases cs with
      | nil =>
        rw [change_branch_nil]
        exact h
      | cons c' cs =>
        rw [change_branch_cons]
        exact h
    · rw [change_branch_of_gt hdc]
      exact ⟨h.1, ih h.2⟩

theorem Sorted.spell {c : Char} {beside : Trie} (h : beside.Sorted) (hc : beside.Above c)
    (mark : Mark) (cs : List Char) : (spell mark beside c cs).Sorted := by
  induction cs generalizing c beside with
  | nil => exact ⟨trivial, h, hc⟩
  | cons c' cs ih => exact ⟨ih Sorted.empty (Above.empty c'), h, hc⟩

theorem Sorted.change {t : Trie} (h : t.Sorted) (f : Mark → Mark) (c : Char) (cs : List Char) :
    (t.change f c cs).Sorted := by
  induction t generalizing c cs with
  | empty => exact Sorted.empty.spell (Above.empty c) _ cs
  | branch d mark below beside ihBelow ihBeside =>
    obtain ⟨hbelow, hbeside, habove⟩ := h
    rcases lt_trichotomy c d with hcd | rfl | hdc
    · have hsorted : (branch d mark below beside).Sorted := ⟨hbelow, hbeside, habove⟩
      have hfront : (branch d mark below beside).Above c := ⟨hcd, habove.of_lt hcd⟩
      rw [change_branch_of_lt hcd]
      exact hsorted.spell hfront _ cs
    · cases cs with
      | nil =>
        rw [change_branch_nil]
        exact ⟨hbelow, hbeside, habove⟩
      | cons c' cs =>
        rw [change_branch_cons]
        exact ⟨ihBelow hbelow c' cs, hbeside, habove⟩
    · rw [change_branch_of_gt hdc]
      exact ⟨hbelow, ihBeside hbeside c cs, habove.change hdc f cs⟩

/-! ## Whole words -/

theorem Sorted.modify {t : Trie} (h : t.Sorted) (f : Mark → Mark) (word : String) :
    (t.modify f word).Sorted := by
  rw [Trie.modify]
  split
  · exact h
  · exact h.change f _ _

@[simp] theorem markOf_empty_word (t : Trie) : t.markOf "" = .blank := rfl

@[simp] theorem markOf_empty (word : String) : Trie.empty.markOf word = .blank := by
  rw [markOf]
  split
  · rfl
  · exact find_empty _ _

/-- **Lookup after a change**, in a sorted trie.  The empty word has no mark to change. -/
theorem markOf_modify {t : Trie} (h : t.Sorted) {word : String} (hword : word ≠ "")
    (f : Mark → Mark) (w : String) :
    (t.modify f word).markOf w = if w = word then f (t.markOf word) else t.markOf w := by
  obtain ⟨c, cs, hcs⟩ : ∃ c cs, word.toList = c :: cs :=
    List.exists_cons_of_ne_nil fun h => hword (String.toList_eq_nil_iff.mp h)
  have hmodify : t.modify f word = t.change f c cs := by simp only [modify, hcs]
  have hmark : t.markOf word = t.find c cs := by simp only [markOf, hcs]
  rw [hmodify, hmark]
  cases hes : w.toList with
  | nil =>
    have hw : w ≠ word := by
      rintro rfl
      rw [hes] at hcs
      exact List.cons_ne_nil _ _ hcs.symm
    rw [if_neg hw]
    simp only [markOf, hes]
  | cons e es =>
    have hw : w = word ↔ e = c ∧ es = cs := by
      rw [← String.toList_inj, hes, hcs, List.cons.injEq]
    simp only [markOf, hes, hw]
    exact find_change h f c cs e es

end RepairCorpus.Trie
