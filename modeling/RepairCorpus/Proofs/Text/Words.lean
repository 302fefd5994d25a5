import RepairCorpus.Proofs.Text.Lines
import RepairCorpus.Text.Blank
import RepairCorpus.Text.Infix

/-!
# Words that are joined and split

A line of tokens is made by putting a space between words and is taken apart again at its blanks.  The two
fit together as long as no word is empty and none has a blank of its own.  A literal may have blanks of any
kind in its source text, line breaks among them, and that is what squeezing is for: a squeezed text is one
word unless it is empty.

* `words_intercalate`: **words with spaces between them fall apart into the same words**.
* `isBlank_intercalate`: the spaces are the only blanks then.
* `isWord_squeeze`: a squeezed text is one word.
* `contains_intercalate_iff`: **a text without spaces is in the line if it is in one of the words**.
-/

namespace RepairCorpus.Text

/-- A text that is one word: it has characters, and none of them is blank. -/
structure IsWord (s : String) : Prop where
  ne_empty : s ≠ ""
  solid : ∀ c ∈ s.toList, isBlank c = false

theorem isWord_iff {s : String} :
    IsWord s ↔ s ≠ "" ∧ (s.toList.all fun c => !isBlank c) = true := by
  have hall : (s.toList.all fun c => !isBlank c) = true ↔ ∀ c ∈ s.toList, isBlank c = false := by
    simp only [List.all_eq_true, Bool.not_eq_true']
  rw [hall]
  exact ⟨fun h => ⟨h.ne_empty, h.solid⟩, fun h => ⟨h.1, h.2⟩⟩

instance (s : String) : Decidable (IsWord s) := decidable_of_iff _ isWord_iff.symm

variable {ws : List String} {s : String}

/-! ## Splitting -/

/-- Characters that are not blank go to the word under construction. -/
theorem wordsFrom_append {word : List Char} (h : ∀ c ∈ word, isBlank c = false)
    (current rest : List Char) :
    wordsFrom current (word ++ rest) = wordsFrom (word.reverse ++ current) rest := by
  induction word generalizing current with
  | nil => rfl
  | cons c cs ih =>
    have hc : ¬isBlank c = true := Bool.eq_false_iff.mp (h c (.head _))
    rw [List.cons_append, wordsFrom, if_neg hc, ih fun d hd => h d (.tail _ hd),
      List.reverse_cons, List.append_assoc]
    rfl

/-- A blank ends the word under construction. -/
theorem wordsFrom_blank_cons {current : List Char} (hcurrent : current ≠ []) {c : Char}
    (hc : isBlank c = true) (rest : List Char) :
    wordsFrom current (c :: rest) = current.reverse :: wordsFrom [] rest := by
  have hnonempty : ¬current.isEmpty = true := fun h => hcurrent (List.isEmpty_iff.mp h)
  rw [wordsFrom, if_pos hc, if_neg hnonempty]

theorem wordsFrom_nil {current : List Char} (hcurrent : current ≠ []) :
    wordsFrom current [] = [current.reverse] := by
  have hnonempty : ¬current.isEmpty = true := fun h => hcurrent (List.isEmpty_iff.mp h)
  rw [wordsFrom, if_neg hnonempty]

theorem wordsFrom_intercalate {css : List (List Char)}
    (h : ∀ cs ∈ css, cs ≠ [] ∧ ∀ c ∈ cs, isBlank c = false) :
    wordsFrom [] ([' '].intercalate css) = css := by
  induction css with
  | nil => rfl
  | cons cs css ih =>
    obtain ⟨hne, hsolid⟩ := h cs (.head _)
    have hcurrent : cs.reverse ++ [] ≠ [] := by simpa using hne
    have hword : (cs.reverse ++ []).reverse = cs := by simp
    cases css with
    | nil =>
      rw [List.intercalate_singleton, ← List.append_nil cs, wordsFrom_append hsolid,
        wordsFrom_nil hcurrent, hword, List.append_nil]
    | cons ds css =>
      have hrest := ih fun es hes => h es (.tail _ hes)
      rw [List.intercalate_cons_cons, List.append_assoc, wordsFrom_append hsolid,
        List.singleton_append, wordsFrom_blank_cons hcurrent isBlank_space, hword, hrest]

/-- **Words with spaces between them fall apart into the same words.** -/
theorem words_intercalate (h : ∀ w ∈ ws, IsWord w) : words (" ".intercalate ws) = ws := by
  have hlists : ∀ cs ∈ ws.map String.toList, cs ≠ [] ∧ ∀ c ∈ cs, isBlank c = false := by
    intro cs hcs
    obtain ⟨w, hw, rfl⟩ := List.mem_map.mp hcs
    exact ⟨fun hnil => (h w hw).ne_empty (String.toList_eq_nil_iff.mp hnil), (h w hw).solid⟩
  have hspace : " ".toList = [' '] := rfl
  rw [words, String.toList_intercalate, hspace, wordsFrom_intercalate hlists, List.map_map]
  simp only [Function.comp_def, String.ofList_toList, List.map_id']

/-- The spaces between words are the only blanks of a line of words. -/
theorem isBlank_intercalate (h : ∀ w ∈ ws, IsWord w) {c : Char}
    (hc : c ∈ (" ".intercalate ws).toList) (hblank : isBlank c = true) : c = ' ' := by
  rcases mem_of_mem_intercalate hc with hspace | ⟨w, hw, hmem⟩
  · exact List.mem_singleton.mp hspace
  · rw [(h w hw).solid c hmem] at hblank
    cases hblank

/-- A text with no blanks but spaces has no line breaks. -/
theorem plain_of_isBlank (h : ∀ c ∈ s.toList, isBlank c = true → c = ' ') : Plain s where
  noFeed hmem := absurd (h '\n' hmem (by decide)) (by decide)
  noReturn hmem := absurd (h '\r' hmem (by decide)) (by decide)

/-! ## Squeezing -/

/-- Squeezing leaves nothing only of nothing: the first character is never dropped. -/
theorem squeeze_eq_empty_iff : squeeze s = "" ↔ s = "" := by
  rw [squeeze, String.ofList_eq_empty_iff, ← String.toList_eq_nil_iff]
  cases s.toList with
  | nil => exact iff_of_true rfl rfl
  | cons c cs =>
    refine iff_of_false (fun h => ?_) (List.cons_ne_nil c cs)
    unfold squeezeFrom at h
    split at h <;> cases h

/-- **A squeezed text is one word.** -/
theorem isWord_squeeze (h : s ≠ "") : IsWord (squeeze s) where
  ne_empty hempty := h (squeeze_eq_empty_iff.mp hempty)
  solid c hc := by
    rw [squeeze, String.toList_ofList] at hc
    exact isBlank_of_mem_squeezeFrom hc

/-! ## Searching -/

/-- What lies in a list and does not hold one of its elements lies on one side of that element. -/
theorem infix_append_cons_iff {α : Type} {x : α} {p as bs : List α} (h : x ∉ p) :
    p <:+: as ++ x :: bs ↔ p <:+: as ∨ p <:+: bs := by
  constructor
  · rintro ⟨s, t, heq⟩
    rcases List.append_eq_append_iff.mp heq with ⟨front, has, -⟩ | ⟨back, hfront, hback⟩
    · exact Or.inl ⟨s, front, has.symm⟩
    · cases back with
      | nil =>
        rw [List.append_nil] at hfront
        exact Or.inl (hfront ▸ (List.suffix_append s p).isInfix)
      | cons y back =>
        rw [List.cons_append] at hback
        obtain ⟨rfl, rfl⟩ := List.cons.inj hback
        rcases List.append_eq_append_iff.mp hfront with ⟨mid, -, rfl⟩ | ⟨mid, -, hp⟩
        · exact absurd (List.mem_append_right mid (.head _)) h
        · cases mid with
          | nil =>
            rw [List.nil_append] at hp
            exact absurd (hp ▸ List.mem_cons_self) h
          | cons z mid =>
            rw [List.cons_append] at hp
            obtain ⟨-, rfl⟩ := List.cons.inj hp
            exact Or.inr (List.infix_append mid p t)
  · rintro (hin | hin)
    · exact hin.trans (List.prefix_append as _).isInfix
    · exact hin.trans ((List.suffix_cons x bs).trans (List.suffix_append as _)).isInfix

theorem infix_intercalate_iff {α : Type} {x : α} {p : List α} (hne : p ≠ []) (hx : x ∉ p)
    (css : List (List α)) : p <:+: [x].intercalate css ↔ ∃ cs ∈ css, p <:+: cs := by
  induction css with
  | nil =>
    rw [List.intercalate_nil, List.infix_nil]
    exact iff_of_false hne fun ⟨_, hcs, _⟩ => List.not_mem_nil hcs
  | cons cs css ih =>
    cases css with
    | nil =>
      rw [List.intercalate_singleton]
      simp only [List.mem_singleton, exists_eq_left]
    | cons ds css =>
      rw [List.intercalate_cons_cons, List.append_assoc, List.singleton_append,
        infix_append_cons_iff hx, ih]
      simp only [List.mem_cons, exists_eq_or_imp]

/-- **A text without spaces is in a line of words if it is in one of the words.** -/
theorem contains_intercalate_iff {p : String} (hne : p ≠ "") (hsolid : ' ' ∉ p.toList) :
    contains (" ".intercalate ws) p = true ↔ ∃ w ∈ ws, contains w p = true := by
  have hspace : " ".toList = [' '] := rfl
  have hchars : p.toList ≠ [] := fun h => hne (String.toList_eq_nil_iff.mp h)
  rw [contains, occursIn_iff, String.toList_intercalate, hspace, infix_intercalate_iff hchars hsolid]
  simp only [contains, occursIn_iff, List.mem_map, exists_exists_and_eq_and]

end RepairCorpus.Text
