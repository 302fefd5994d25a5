import RepairCorpus.Json.Excerpt
import RepairCorpus.Proofs.Json.Nesting

/-!
# Limits and wholeness of documents

What an excerpt keeps of a text is read like a whole text in which null stands for every value that is
passed over.  So each lexeme takes the reader as far as the lexemes that are `heard` of it, and what single
steps of reading preserve is preserved by excerpts.  A text that is read as a whole is the excerpt that
passes over nothing.

* `Excerpt.place_step`: an excerpt is read by what is heard of it.
* `readExcerpt_some_eq`: **the limit does not matter to excerpts that keep to it**, however deep the values
  nest that are passed over.
* `whole_readExcerpt_of_closed`: nothing is missing in the value of a closed excerpt.
* `readExcerpt_none_passed`: without anything to pass over a text is read as a whole.
-/

namespace RepairCorpus.Json

variable {limit : Option Nat} {passes : List Frame → String → Bool} {e : Excerpt} {l : Lexeme}
  {ls : List Lexeme} {n : Nat} {text : String}

namespace Excerpt

/-- What is heard of a lexeme: nothing of a value that is passed over, but that it has ended or gone
wrong. -/
def heard : Excerpt → Lexeme → List Lexeme
  | .reading _, l => [l]
  | .passing value _ _ _, l =>
    match value.step none l.relaxed with
    | .done d => [if d.closed then .scalar .null else .fault]
    | _ => []

theorem place_enter (passes : List Frame → String → Bool) (r : Reading) : (enter passes r).place = r := by
  unfold enter
  split
  next => split <;> rfl
  next => rfl

/-- **An excerpt is read by what is heard of it.** -/
theorem place_step (limit : Option Nat) (passes : List Frame → String → Bool) (e : Excerpt) (l : Lexeme) :
    (step limit passes e l).place = (e.heard l).foldl (Reading.step limit) e.place := by
  cases e with
  | reading r => exact place_enter passes _
  | passing value members key frames =>
    rw [step, heard]
    cases value.step none l.relaxed with
    | done d =>
      obtain ⟨v, closed⟩ := d
      cases closed <;> rfl
    | _ => rfl

theorem whole_heard (hl : l.whole = true) : ∀ l' ∈ e.heard l, l'.whole = true := by
  cases e with
  | reading r => exact fun l' hl' => List.mem_singleton.mp hl' ▸ hl
  | passing value members key frames =>
    rw [heard]
    split
    next d _ =>
      intro l' hl'
      rw [List.mem_singleton.mp hl']
      split <;> rfl
    next => exact nofun

/-- What has been kept does not get less deep. -/
theorem reach_le_foldl (limit : Option Nat) (passes : List Frame → String → Bool) (e : Excerpt)
    (ls : List Lexeme) : e.place.reach ≤ (ls.foldl (step limit passes) e).place.reach := by
  induction ls generalizing e with
  | nil => exact Nat.le_refl _
  | cons l ls ih =>
    refine Nat.le_trans ?_ (ih (step limit passes e l))
    rw [place_step]
    exact Reading.reach_le_foldl limit e.place _

/-- A value that is passed over is not judged by the limit. -/
theorem step_some_eq (h : (step none passes e l).place.reach ≤ n) :
    step (some n) passes e l = step none passes e l := by
  cases e with
  | reading r =>
    rw [step, place_enter] at h
    rw [step, step, Reading.step_some_eq h]
  | passing value members key frames => rfl

theorem foldl_some_eq (h : (ls.foldl (step none passes) e).place.reach ≤ n) :
    ls.foldl (step (some n) passes) e = ls.foldl (step none passes) e := by
  induction ls generalizing e with
  | nil => rfl
  | cons l ls ih =>
    have hstep : (step none passes e l).place.reach ≤ n :=
      Nat.le_trans (reach_le_foldl none passes _ ls) h
    rw [List.foldl_cons, List.foldl_cons, step_some_eq hstep]
    exact ih h

theorem whole_foldl (he : e.place.Whole) (hls : ∀ l ∈ ls, l.whole = true) :
    (ls.foldl (step limit passes) e).place.Whole := by
  induction ls generalizing e with
  | nil => exact he
  | cons l ls ih =>
    obtain ⟨hl, hls⟩ := List.forall_mem_cons.mp hls
    refine ih ?_ hls
    rw [place_step]
    exact he.foldl limit (whole_heard hl)

theorem enter_none_passed (r : Reading) : enter (fun _ _ => false) r = .reading r := by
  unfold enter
  split <;> rfl

theorem foldl_none_passed (limit : Option Nat) (r : Reading) (ls : List Lexeme) :
    ls.foldl (step limit fun _ _ => false) (.reading r) = .reading (ls.foldl (Reading.step limit) r) := by
  induction ls generalizing r with
  | nil => rfl
  | cons l ls ih => rw [List.foldl_cons, List.foldl_cons, step, enter_none_passed, ih]

end Excerpt

/-! ## Documents -/

/-- **The limit does not matter** to what is kept of a text, as long as this keeps to it. -/
theorem readExcerpt_some_eq (h : (readExcerpt none passes text).value.depth ≤ n) :
    readExcerpt (some n) passes text = readExcerpt none passes text := by
  rw [readExcerpt, readExcerpt, Excerpt.foldl_some_eq h]

/-- **Nothing is missing** in what is kept of a text that is closed. -/
theorem whole_readExcerpt_of_closed (h : (readExcerpt limit passes text).closed = true) :
    (readExcerpt limit passes text).value.whole = true := by
  have hstart : Reading.Whole (.value [] false) := fun f hf => absurd hf List.not_mem_nil
  exact (Excerpt.whole_foldl (e := .reading _) hstart (whole_lexemes text)).abandon h

/-- A text nothing of which is passed over is read as a whole. -/
theorem readExcerpt_none_passed (limit : Option Nat) (text : String) :
    readExcerpt limit (fun _ _ => false) text = read limit text := by
  rw [readExcerpt, Excerpt.foldl_none_passed]
  rfl

/-- The limit does not matter to a text whose value keeps to it. -/
theorem read_some_eq (h : (read none text).value.depth ≤ n) : read (some n) text = read none text := by
  simp only [← readExcerpt_none_passed] at h ⊢
  exact readExcerpt_some_eq h

/-- Nothing is missing in the value of a closed document. -/
theorem whole_of_closed (h : (read limit text).closed = true) : (read limit text).value.whole = true := by
  rw [← readExcerpt_none_passed] at h ⊢
  exact whole_readExcerpt_of_closed h

end RepairCorpus.Json
