import Mathlib.Data.List.Nodup
import RepairCorpus.Proofs.Vocabulary.Marks
import RepairCorpus.Vocabulary.Miner

/-!
# Listings of words

The words that have been seen are listed by walking through a trie, letter by letter in the order of the
letters.  What comes of it depends on the marks of the words alone: those words are listed that begin with
the letters of the place where the walk began and have been seen, each once and in ascending order.  There
is only one such list.

* `Listing`: what a list of words has to be.
* `Listing.unique`: there is one at most.
* `Listing.ownCount_append`: a word comes before its continuations.
* `Trie.Sorted.listing_counts`: **a sorted trie lists its words**.
-/

namespace RepairCorpus

/-- The count that is shown of a mark; a word that has not been seen has none. -/
def Mark.seen? (mark : Mark) : Option Nat := if mark.count = 0 then none else some mark.count

@[simp] theorem Mark.seen?_blank : Mark.blank.seen? = none := rfl

/-! ## The order of words -/

section Order

variable {v w : String} {cs : List Char} {c d : Char}

theorem lt_of_branch (hcd : c < d) (hv : cs ++ [c] <+: v.toList) (hw : cs ++ [d] <+: w.toList) :
    v < w := by
  obtain ⟨es, hes⟩ := hv
  obtain ⟨fs, hfs⟩ := hw
  rw [String.lt_iff, ← hes, ← hfs, List.append_assoc, List.append_assoc]
  exact List.append_left_lt (List.cons_lt_cons_iff.mpr (Or.inl hcd))

theorem lt_of_longer (hv : v.toList = cs) (hw : cs ++ [c] <+: w.toList) : v < w := by
  obtain ⟨es, hes⟩ := hw
  rw [String.lt_iff, hv, ← hes, List.append_assoc]
  calc cs = cs ++ [] := (List.append_nil cs).symm
    _ < cs ++ ([c] ++ es) := List.append_left_lt (List.nil_lt_cons c es)

/-- A word that begins with some letters ends there or goes on with one more. -/
theorem prefix_toList_iff :
    cs <+: w.toList ↔ w.toList = cs ∨ ∃ c, cs ++ [c] <+: w.toList := by
  constructor
  · rintro ⟨es, hes⟩
    cases es with
    | nil => exact Or.inl (by rw [← hes, List.append_nil])
    | cons e es => exact Or.inr ⟨e, es, by rw [List.append_assoc, List.singleton_append, hes]⟩
  · rintro (rfl | ⟨c, hc⟩)
    · exact List.prefix_rfl
    · exact (List.prefix_append cs [c]).trans hc

end Order

/-! ## Listings -/

/-- The words that begin with some letters and have been seen, in ascending order, with their counts. -/
structure Listing (known : List Char → Mark) (cs : List Char) (ps : List (String × Nat)) : Prop where
  ascending : ps.Pairwise fun p q => p.1 < q.1
  mem_iff : ∀ w n, (w, n) ∈ ps ↔ cs <+: w.toList ∧ (known w.toList).seen? = some n

/-- A word itself with the count of a mark, if the word has been seen. -/
def ownCount (cs : List Char) (mark : Mark) : List (String × Nat) :=
  if mark.count = 0 then [] else [(String.ofList cs, mark.count)]

theorem mem_ownCount_iff {cs : List Char} {mark : Mark} {w : String} {n : Nat} :
    (w, n) ∈ ownCount cs mark ↔ w.toList = cs ∧ mark.seen? = some n := by
  rw [ownCount, Mark.seen?]
  by_cases hcount : mark.count = 0
  · rw [if_pos hcount, if_pos hcount]
    exact iff_of_false List.not_mem_nil fun h => Option.some_ne_none n h.2.symm
  · rw [if_neg hcount, if_neg hcount, List.mem_singleton, Prod.mk.injEq, Option.some.injEq,
      ← String.toList_inj, String.toList_ofList, eq_comm (a := n)]

theorem pairwise_ownCount (cs : List Char) (mark : Mark) :
    (ownCount cs mark).Pairwise fun p q => p.1 < q.1 := by
  rw [ownCount]
  split
  · exact List.Pairwise.nil
  · exact List.pairwise_singleton _ _

namespace Listing

variable {known : List Char → Mark} {cs : List Char} {ps qs : List (String × Nat)}

/-- There is one listing at most. -/
theorem unique (hp : Listing known cs ps) (hq : Listing known cs qs) : ps = qs := by
  have hnodup {rs : List (String × Nat)} (h : Listing known cs rs) : rs.Nodup := by
    refine h.ascending.imp fun hlt heq => ?_
    rw [heq] at hlt
    exact String.lt_irrefl _ hlt
  have hperm : ps.Perm qs := (List.perm_ext_iff_of_nodup (hnodup hp) (hnodup hq)).mpr fun p =>
    (hp.mem_iff p.1 p.2).trans (hq.mem_iff p.1 p.2).symm
  exact hperm.eq_of_pairwise (fun p q _ _ hpq hqp => absurd (String.lt_trans hpq hqp) (String.lt_irrefl _))
    hp.ascending hq.ascending

/-- A word comes before its continuations. -/
theorem ownCount_append (hsorted : ps.Pairwise fun p q => p.1 < q.1)
    (hmem : ∀ w n, (w, n) ∈ ps ↔ (∃ c, cs ++ [c] <+: w.toList) ∧ (known w.toList).seen? = some n) :
    Listing known cs (ownCount cs (known cs) ++ ps) := by
  refine ⟨List.pairwise_append.mpr ⟨pairwise_ownCount _ _, hsorted, fun p hp q hq => ?_⟩, fun w n => ?_⟩
  · obtain ⟨c, hc⟩ := ((hmem q.1 q.2).mp hq).1
    exact lt_of_longer (mem_ownCount_iff.mp hp).1 hc
  · have hown : w.toList = cs ∧ (known cs).seen? = some n ↔
        w.toList = cs ∧ (known w.toList).seen? = some n :=
      and_congr_right fun hw => by rw [hw]
    rw [List.mem_append, mem_ownCount_iff, hmem, hown, ← or_and_right, prefix_toList_iff]

end Listing

/-! ## Tries -/

namespace Trie

variable {t : Trie} {start : List Char} {w : String} {n : Nat}

/-- A letter that begins a word that is known comes after those that all first letters come after. -/
theorem Above.lt_of_find {c e : Char} {es : List Char} (h : t.Above c) (he : t.find e es ≠ .blank) :
    c < e := by
  by_contra hle
  rcases lt_or_eq_of_le (not_lt.mp hle) with hlt | rfl
  · exact he ((h.of_lt hlt).find es)
  · exact he (h.find es)

theorem ne_blank_of_seen? {mark : Mark} (h : mark.seen? = some n) : mark ≠ .blank := by
  rintro rfl
  cases h

theorem countsFrom_branch (d : Char) (mark : Mark) (below beside : Trie) (start : List Char) :
    (branch d mark below beside).countsFrom start = ownCount (start.reverse ++ [d]) mark
      ++ below.countsFrom (d :: start) ++ beside.countsFrom start := by
  rw [countsFrom, ownCount, List.reverse_cons]

/-- The words listed are those that are known. -/
theorem Sorted.mem_countsFrom_iff (h : t.Sorted) (start : List Char) : (w, n) ∈ t.countsFrom start ↔
    ∃ c cs, w.toList = start.reverse ++ c :: cs ∧ (t.find c cs).seen? = some n := by
  induction t generalizing start with
  | empty =>
    refine iff_of_false List.not_mem_nil ?_
    rintro ⟨c, cs, -, hseen⟩
    exact ne_blank_of_seen? hseen (find_empty c cs)
  | branch d mark below beside ihBelow ihBeside =>
    obtain ⟨hbelow, hbeside, habove⟩ := h
    rw [countsFrom_branch, List.mem_append, List.mem_append, mem_ownCount_iff, ihBelow hbelow,
      ihBeside hbeside, List.reverse_cons]
    constructor
    · rintro ((⟨hw, hseen⟩ | ⟨c, cs, hw, hseen⟩) | ⟨e, es, hw, hseen⟩)
      · exact ⟨d, [], hw, by rwa [find_branch_nil]⟩
      · exact ⟨d, c :: cs, by rw [hw, List.append_assoc, List.singleton_append],
          by rwa [find_branch_cons]⟩
      · have hde : d < e := habove.lt_of_find (ne_blank_of_seen? hseen)
        exact ⟨e, es, hw, by rwa [find_branch_of_ne (ne_of_lt hde).symm]⟩
    · rintro ⟨c, cs, hw, hseen⟩
      by_cases hcd : c = d
      · subst hcd
        cases cs with
        | nil =>
          rw [find_branch_nil] at hseen
          exact Or.inl (Or.inl ⟨hw, hseen⟩)
        | cons c' cs =>
          rw [find_branch_cons] at hseen
          exact Or.inl (Or.inr ⟨c', cs, by rw [hw, List.append_assoc, List.singleton_append], hseen⟩)
      · rw [find_branch_of_ne hcd] at hseen
        exact Or.inr ⟨c, cs, hw, hseen⟩

/-- The words listed ascend. -/
theorem Sorted.pairwise_countsFrom (h : t.Sorted) (start : List Char) :
    (t.countsFrom start).Pairwise fun p q => p.1 < q.1 := by
  induction t generalizing start with
  | empty => exact List.Pairwise.nil
  | branch d mark below beside ihBelow ihBeside =>
    obtain ⟨hbelow, hbeside, habove⟩ := h
    have hbegins {v : String} {c : Char} {cs : List Char} (hv : v.toList = start.reverse ++ c :: cs) :
        start.reverse ++ [c] <+: v.toList :=
      ⟨cs, by rw [hv, List.append_assoc, List.singleton_append]⟩
    rw [countsFrom_branch, List.pairwise_append, List.pairwise_append]
    refine ⟨⟨pairwise_ownCount _ _, ihBelow hbelow _, fun p hp q hq => ?_⟩, ihBeside hbeside start,
      fun p hp q hq => ?_⟩
    · obtain ⟨c, cs, hw, -⟩ := (hbelow.mem_countsFrom_iff (d :: start)).mp hq
      rw [List.reverse_cons] at hw
      exact lt_of_longer (mem_ownCount_iff.mp hp).1
        ⟨cs, by rw [hw, List.append_assoc, List.singleton_append]⟩
    · -- all that stands beside begins with a later letter
      obtain ⟨e, es, hq, hseen⟩ := (hbeside.mem_countsFrom_iff start).mp hq
      have hde : d < e := habove.lt_of_find (ne_blank_of_seen? hseen)
      have hpd : start.reverse ++ [d] <+: p.1.toList := by
        rcases List.mem_append.mp hp with hp | hp
        · exact (mem_ownCount_iff.mp hp).1 ▸ List.prefix_rfl
        · obtain ⟨c, cs, hw, -⟩ := (hbelow.mem_countsFrom_iff (d :: start)).mp hp
          rw [List.reverse_cons, List.append_assoc] at hw
          exact hbegins hw
      exact lt_of_branch hde hpd (hbegins hq)

/-- **A sorted trie lists its words.** -/
theorem Sorted.listing_counts (h : t.Sorted) :
    Listing (fun cs => t.markOf (String.ofList cs)) [] t.counts := by
  refine ⟨h.pairwise_countsFrom [], fun w n => ?_⟩
  rw [counts, h.mem_countsFrom_iff, String.ofList_toList, markOf]
  cases w.toList with
  | nil => simp
  | cons c cs => simp

end Trie

end RepairCorpus
