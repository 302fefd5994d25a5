import Mathlib.Data.List.Nodup
import Mathlib.Data.List.Perm.Subperm
import RepairCorpus.Proofs.Vocabulary.ArenaWords

/-!
# Walks through an array of cells

The words of a trie in an array are gathered by a walk that goes from a cell to its children, in the order
of their letters, with a single record of the letters on the way.  Every cell puts its letter on the record
and takes it off again, so the record is for each child what it was for the one before.  The order in which
the children of a cell are stored is not known and does not matter, since they are put in order first.

Nothing in the array says that the walk ends.  It does because a child's word is longer than that of its
parent, and no word of a trie has as many letters as the trie has cells: each beginning of it has a cell of
its own.

* `Arena.Holds.length_lt`: how long the words of a trie are.
* `Arena.Holds.gather`: **a walk ends and finds the listing of the words below a cell**.
* `Arena.Holds.counts`: the words of a trie are listed.
* `Arena.Holds.distinct`: **as many words are listed as cells have a count**.
-/

namespace RepairCorpus

variable {words : List (List Char)} {known : List Char → Mark} {cs : List Char}

/-! ## Children in order -/

namespace Cell

variable {x : Cell} {mark : Mark}

theorem mem_orderedChildren_iff {c : Char} {j : Nat} :
    (c, j) ∈ x.orderedChildren ↔ x.children[c]? = some j := by
  rw [orderedChildren, List.mem_mergeSort, Std.HashMap.mem_toList_iff_getElem?_eq_some]

/-- The letters of the children ascend. -/
theorem pairwise_orderedChildren (x : Cell) : x.orderedChildren.Pairwise fun c d => c.1 < d.1 := by
  have hsorted : x.orderedChildren.Pairwise fun c d => decide (c.1 ≤ d.1) = true :=
    List.pairwise_mergeSort (fun c d e hcd hde => by
      rw [decide_eq_true_eq] at hcd hde ⊢
      exact le_trans hcd hde) (fun c d => by
      rw [Bool.or_eq_true, decide_eq_true_eq, decide_eq_true_eq]
      exact le_total c.1 d.1) _
  have hletters : x.orderedChildren.Pairwise fun c d => c.1 ≠ d.1 := by
    refine (List.mergeSort_perm _ _).pairwise_iff (fun hcd heq => hcd heq.symm) |>.mpr ?_
    exact Std.HashMap.distinct_keys_toList.imp fun hne heq => by simp [heq] at hne
  exact (hsorted.and hletters).imp fun h => lt_of_le_of_ne (of_decide_eq_true h.1) h.2

end Cell

/-! ## The record of letters -/

namespace Harvest

variable {g g' g'' : Harvest} {ps qs : List (String × Nat)}

/-- A walk that ends where it began and has found some words. -/
structure Adds (g g' : Harvest) (ps : List (String × Nat)) : Prop where
  letters : g'.letters = g.letters
  found : g'.found.toList = g.found.toList ++ ps

theorem Adds.refl (g : Harvest) : g.Adds g [] := ⟨rfl, (List.append_nil _).symm⟩

theorem Adds.trans (h : g.Adds g' ps) (h' : g'.Adds g'' qs) : g.Adds g'' (ps ++ qs) :=
  ⟨h'.letters.trans h.letters, by rw [h'.found, h.found, List.append_assoc]⟩

/-- Inside a cell, all of its letters are on the record. -/
theorem letters_enter (h : g.letters = cs.dropLast.reverse) :
    (g.enter cs.getLast?).letters = cs.reverse := by
  cases cs using List.reverseRecOn with
  | nil => exact h
  | append_singleton cs c =>
    rw [List.dropLast_concat] at h
    rw [List.getLast?_concat, enter, h, List.reverse_append]
    rfl

/-- On the way out of a cell its letter is taken off the record. -/
theorem letters_leave (h : g.letters = cs.reverse) :
    (g.leave cs.getLast?).letters = cs.dropLast.reverse := by
  cases cs using List.reverseRecOn with
  | nil => exact h
  | append_singleton cs c =>
    rw [List.dropLast_concat, List.getLast?_concat, leave, h, List.reverse_append]
    rfl

theorem found_enter (letter : Option Char) : (g.enter letter).found = g.found := by
  cases letter <;> rfl

theorem found_leave (letter : Option Char) : (g.leave letter).found = g.found := by
  cases letter <;> rfl

/-- The word on the record is noted if it has been seen. -/
theorem adds_reap (h : g.letters = cs.reverse) (mark : Mark) :
    g.Adds (g.reap mark.seen?) (ownCount cs mark) := by
  rw [Mark.seen?, ownCount]
  by_cases hcount : mark.count = 0
  · rw [if_pos hcount, if_pos hcount]
    exact Adds.refl g
  · rw [if_neg hcount, if_neg hcount]
    refine ⟨rfl, ?_⟩
    rw [reap, h, List.reverse_reverse, Array.toList_push]

end Harvest

/-! ## Walking -/

namespace Arena

variable {a : Arena} {g : Harvest} {i rest : Nat}

/-- The walks through some children, in ascending order of their letters. -/
theorem foldlM_gather {children : List (Char × Nat)}
    (hwalk : ∀ child ∈ children, ∀ g : Harvest, g.letters = cs.reverse →
      ∃ g' ps, a.gather rest g child.2 = some g' ∧ g.Adds g' ps ∧
        Listing known (cs ++ [child.1]) ps)
    (hsorted : children.Pairwise fun c d => c.1 < d.1) (hg : g.letters = cs.reverse) :
    ∃ g' ps, children.foldlM (fun g child => a.gather rest g child.2) g = some g' ∧ g.Adds g' ps ∧
      (ps.Pairwise fun p q => p.1 < q.1) ∧
      ∀ w n, (w, n) ∈ ps ↔ (∃ child ∈ children, cs ++ [child.1] <+: w.toList) ∧
        (known w.toList).seen? = some n := by
  induction children generalizing g with
  | nil => exact ⟨g, [], rfl, Harvest.Adds.refl g, List.Pairwise.nil, fun w n => by simp⟩
  | cons child children ih =>
    obtain ⟨hlater, hsorted⟩ := List.pairwise_cons.mp hsorted
    obtain ⟨g₁, ps, hgather, hadds, hlisting⟩ := hwalk child (.head _) g hg
    obtain ⟨g₂, qs, hrest, hadds', hqs, hmem⟩ :=
      ih (fun c hc => hwalk c (.tail _ hc)) hsorted (hadds.letters.trans hg)
    refine ⟨g₂, ps ++ qs, ?_, hadds.trans hadds', ?_, fun w n => ?_⟩
    · rw [List.foldlM_cons, hgather]
      exact hrest
    · refine List.pairwise_append.mpr ⟨hlisting.ascending, hqs, fun p hp q hq => ?_⟩
      obtain ⟨d, hd, hbegins⟩ := ((hmem q.1 q.2).mp hq).1
      exact lt_of_branch (hlater d hd) ((hlisting.mem_iff p.1 p.2).mp hp).1 hbegins
    · rw [List.mem_append, hlisting.mem_iff, hmem, ← or_and_right]
      simp only [List.mem_cons, exists_eq_or_imp]

namespace Holds

/-- A word that has been seen is in the trie. -/
theorem mem_of_seen? (h : a.Holds words known) {n : Nat} (hseen : (known cs).seen? = some n) :
    cs ∈ words := by
  by_contra hout
  rw [h.unknown cs hout] at hseen
  cases hseen

/-- A word has fewer letters than there are cells. -/
theorem length_lt (h : a.Holds words known) (hmem : cs ∈ words) : cs.length < words.length := by
  have hnodup : ((List.range (cs.length + 1)).map fun n => cs.take n).Nodup := by
    refine List.Nodup.map_on (fun m hm n hn hmn => ?_) List.nodup_range
    have hlength := congrArg List.length hmn
    rw [List.length_take, List.length_take] at hlength
    rw [List.mem_range] at hm hn
    omega
  have hsubset : ((List.range (cs.length + 1)).map fun n => cs.take n) ⊆ words := fun ds hds => by
    obtain ⟨n, -, rfl⟩ := List.mem_map.mp hds
    exact h.mem_of_append_mem ((List.take_append_drop n cs).symm ▸ hmem)
  have hle := hnodup.length_le_of_subset hsubset
  rw [List.length_map, List.length_range] at hle
  exact hle

/-- **A walk ends and finds the listing of the words below a cell.**  The induction is on how many letters
may still be added to the word of the cell. -/
theorem gather (h : a.Holds words known) (hi : words[i]? = some cs)
    (hrest : words.length ≤ cs.length + rest) (hg : g.letters = cs.dropLast.reverse) :
    ∃ g' ps, a.gather rest g i = some g' ∧ g.Adds g' ps ∧ Listing known cs ps := by
  induction rest generalizing i cs g with
  | zero =>
    have hlength := h.length_lt (List.mem_iff_getElem?.mpr ⟨i, hi⟩)
    omega
  | succ rest ih =>
    obtain ⟨x, hx, hstands⟩ := h.cell i cs hi
    have hinside := Harvest.letters_enter hg
    have hown := Harvest.adds_reap hinside (known cs)
    have hwalk : ∀ child ∈ x.orderedChildren, ∀ g : Harvest, g.letters = cs.reverse →
        ∃ g' ps, a.gather rest g child.2 = some g' ∧ g.Adds g' ps ∧
          Listing known (cs ++ [child.1]) ps := by
      intro child hchild g hg
      have hj := (hstands.child child.1 child.2).mp (Cell.mem_orderedChildren_iff.mp hchild)
      refine ih hj ?_ ?_
      · rw [List.length_append, List.length_singleton]
        omega
      · rw [List.dropLast_concat, hg]
    obtain ⟨g', ps, hfold, hadds, hps, hmem⟩ :=
      foldlM_gather hwalk x.pairwise_orderedChildren (hown.letters.trans hinside)
    have hall := hown.trans hadds
    refine ⟨g'.leave cs.getLast?, ownCount cs (known cs) ++ ps, ?_, ⟨?_, ?_⟩, ?_⟩
    · rw [Arena.gather, hx]
      simp only [Option.bind_eq_bind, Option.bind_some, hstands.letter, hstands.count, hfold]
      rfl
    · rw [Harvest.letters_leave (hall.letters.trans hinside), hg]
    · rw [Harvest.found_leave, hall.found, Harvest.found_enter]
    · refine Listing.ownCount_append hps fun w n => ?_
      rw [hmem]
      refine and_congr_left fun hseen => ⟨fun ⟨child, _, hbegins⟩ => ⟨child.1, hbegins⟩, ?_⟩
      -- a word that has been seen is in the trie, and so are its beginnings
      rintro ⟨c, hbegins⟩
      obtain ⟨es, hes⟩ := hbegins
      obtain ⟨j, hj⟩ := List.mem_iff_getElem?.mp (h.mem_of_append_mem (hes ▸ h.mem_of_seen? hseen))
      exact ⟨(c, j), Cell.mem_orderedChildren_iff.mpr ((hstands.child c j).mpr hj), es, hes⟩

/-- **The words of a trie are listed.** -/
theorem counts (h : a.Holds words known) : ∃ ps, a.counts = some ps ∧ Listing known [] ps := by
  have hroom : words.length ≤ ([] : List Char).length + a.cells.size := by
    rw [h.size]
    exact Nat.le_add_left _ _
  obtain ⟨g, ps, hgather, hadds, hlisting⟩ :=
    h.gather h.root hroom (show (⟨[], #[]⟩ : Harvest).letters = _ from rfl)
  refine ⟨ps, ?_, hlisting⟩
  rw [Arena.counts, Arena.root, hgather, Option.map_some, hadds.found]
  rfl

/-- The counts of the cells are those of the words. -/
theorem map_count_cells (h : a.Holds words known) :
    a.cells.toList.map Cell.count = words.map fun cs => (known cs).seen? := by
  refine List.ext_getElem? fun i => ?_
  rw [List.getElem?_map, List.getElem?_map, Array.getElem?_toList]
  cases hi : words[i]? with
  | none =>
    have hsize : a.cells.size ≤ i := h.size ▸ List.getElem?_eq_none_iff.mp hi
    rw [Array.getElem?_eq_none hsize]
    rfl
  | some cs =>
    obtain ⟨x, hx, hstands⟩ := h.cell i cs hi
    rw [hx, Option.map_some, Option.map_some, hstands.count]

/-- The words listed are those of the cells that have a count. -/
theorem perm_listing (h : a.Holds words known) {ps : List (String × Nat)} (hps : Listing known [] ps) :
    (words.filter fun cs => (known cs).seen?.isSome).Perm (ps.map fun p => p.1.toList) := by
  have hnodup : (ps.map fun p => p.1.toList).Nodup := List.pairwise_map.mpr <|
    hps.ascending.imp fun hlt heq => by
      rw [String.toList_inj.mp heq] at hlt
      exact String.lt_irrefl _ hlt
  refine (List.perm_ext_iff_of_nodup (h.nodup.filter _) hnodup).mpr fun cs => ?_
  rw [List.mem_filter, List.mem_map, Option.isSome_iff_exists]
  constructor
  · rintro ⟨-, n, hn⟩
    refine ⟨(String.ofList cs, n), (hps.mem_iff _ n).mpr ?_, String.toList_ofList⟩
    rw [String.toList_ofList]
    exact And.intro List.nil_prefix hn
  · rintro ⟨p, hp, rfl⟩
    have hn := ((hps.mem_iff p.1 p.2).mp hp).2
    exact ⟨h.mem_of_seen? hn, p.2, hn⟩

/-- **As many words are listed as cells have a count.** -/
theorem distinct (h : a.Holds words known) {ps : List (String × Nat)} (hps : Listing known [] ps) :
    a.distinct = ps.length :=
  calc a.distinct = (a.cells.toList.map Cell.count).countP Option.isSome := by
        rw [Arena.distinct, List.countP_map, Array.countP_toList]
        rfl
    _ = (words.filter fun cs => (known cs).seen?.isSome).length := by
        rw [h.map_count_cells, List.countP_map, List.countP_eq_length_filter]
        rfl
    _ = ps.length := by rw [(h.perm_listing hps).length_eq, List.length_map]

end Holds

end Arena

end RepairCorpus
