import Mathlib.Data.List.Basic
import RepairCorpus.Text.Lines

/-!
# Lines that are written and read

Every line is written with a line feed behind it, so that a text of lines falls apart at these line feeds
whatever the lines are.  A line that has a line feed of its own is read as several lines, and one that
ends in a carriage return is read without it; all others are read as they were written.

Where line feeds only stand between lines, the last line has no line feed behind it.  It is not read at all
if it is empty, and it keeps a carriage return at its end.

* `lines_unlines`: the lines of a text are those of its parts.
* `lines_unlines_of_noFeed`: lines without line feeds are read up to a carriage return at their ends.
* `lines_unlines_of_plain`: **lines without line breaks are read as they were written**.
* `lines_intercalate`: **so are lines with line feeds between them**, unless one is empty, has a line feed
  of its own or ends in a carriage return.
-/

namespace RepairCorpus.Text

variable {l : String} {ls : List String}

/-- A line feed ends what can be told about the characters before it. -/
theorem linesFrom_append (current cs rest : List Char) :
    linesFrom current (cs ++ '\n' :: rest) =
      linesFrom current (cs ++ ['\n']) ++ linesFrom [] rest := by
  induction cs generalizing current with
  | nil => simp [linesFrom]
  | cons c cs ih =>
    rw [List.cons_append, List.cons_append, linesFrom, linesFrom]
    by_cases hc : c = '\n'
    · rw [if_pos hc, if_pos hc, ih, List.cons_append]
    · rw [if_neg hc, if_neg hc, ih]

theorem toList_unlines_cons (l : String) (ls : List String) :
    (unlines (l :: ls)).toList = l.toList ++ '\n' :: (unlines ls).toList := by
  simp [unlines, String.toList_join]

/-- **The lines of a text are those of its parts.** -/
theorem lines_unlines (ls : List String) :
    lines (unlines ls) = ls.flatMap fun l => lines (l ++ "\n") := by
  induction ls with
  | nil => rfl
  | cons l ls ih =>
    rw [List.flatMap_cons, ← ih, lines, lines, lines, toList_unlines_cons, String.toList_append,
      linesFrom_append, List.map_append]
    rfl

/-- A text without line breaks. -/
structure Plain (s : String) : Prop where
  noFeed : '\n' ∉ s.toList
  noReturn : '\r' ∉ s.toList

instance (s : String) : Decidable (Plain s) :=
  decidable_of_iff ('\n' ∉ s.toList ∧ '\r' ∉ s.toList) ⟨fun h => ⟨h.1, h.2⟩, fun h => ⟨h.1, h.2⟩⟩

theorem mem_of_mem_intercalate {sep : String} {c : Char} (h : c ∈ (sep.intercalate ls).toList) :
    c ∈ sep.toList ∨ ∃ l ∈ ls, c ∈ l.toList := by
  rw [String.toList_intercalate] at h
  induction ls with
  | nil => exact absurd h List.not_mem_nil
  | cons l ls ih =>
    cases ls with
    | nil =>
      rw [List.map_singleton, List.intercalate_singleton] at h
      exact Or.inr ⟨l, .head _, h⟩
    | cons l' ls =>
      rw [List.map_cons, List.map_cons, List.intercalate_cons_cons] at h
      rcases List.mem_append.mp h with h | h
      · rcases List.mem_append.mp h with h | h
        · exact Or.inr ⟨l, .head _, h⟩
        · exact Or.inl h
      · rcases ih h with hsep | ⟨l'', hl'', h⟩
        · exact Or.inl hsep
        · exact Or.inr ⟨l'', .tail _ hl'', h⟩

/-- Texts without line breaks, put together, have none. -/
theorem plain_intercalate {sep : String} (hsep : Plain sep) (h : ∀ l ∈ ls, Plain l) :
    Plain (sep.intercalate ls) := by
  constructor
  · intro hmem
    rcases mem_of_mem_intercalate hmem with hmem | ⟨l, hl, hmem⟩
    · exact hsep.noFeed hmem
    · exact (h l hl).noFeed hmem
  · intro hmem
    rcases mem_of_mem_intercalate hmem with hmem | ⟨l, hl, hmem⟩
    · exact hsep.noReturn hmem
    · exact (h l hl).noReturn hmem

/-- A line that does not end in a carriage return is read as it is. -/
theorem closedLine_reverse {cs : List Char} (h : cs.getLast? ≠ some '\r') :
    closedLine cs.reverse = cs := by
  unfold closedLine
  split
  next ds heq =>
    refine absurd ?_ h
    rw [← List.head?_reverse, heq]
    rfl
  next => exact List.reverse_reverse _

/-- A line without a carriage return at its end. -/
def withoutReturn (l : String) : String := String.ofList (closedLine l.toList.reverse)

theorem withoutReturn_eq_self (h : l.toList.getLast? ≠ some '\r') : withoutReturn l = l := by
  rw [withoutReturn, closedLine_reverse h, String.ofList_toList]

theorem lines_of_noFeed (h : '\n' ∉ l.toList) : lines (l ++ "\n") = [withoutReturn l] := by
  rw [lines, String.toList_append]
  show (linesFrom [] (l.toList ++ '\n' :: [])).map String.ofList = [withoutReturn l]
  rw [linesFrom_append_newline [] l.toList [] h, List.append_nil, linesFrom_nil, List.map_singleton,
    withoutReturn]

/-- **Lines without line feeds are read as they were written**, up to a carriage return at their ends. -/
theorem lines_unlines_of_noFeed (h : ∀ l ∈ ls, '\n' ∉ l.toList) :
    lines (unlines ls) = ls.map withoutReturn := by
  rw [lines_unlines]
  induction ls with
  | nil => rfl
  | cons l ls ih =>
    rw [List.flatMap_cons, lines_of_noFeed (h l (.head _)), ih fun l' hl' => h l' (.tail _ hl')]
    rfl

/-- **Lines without line breaks are read as they were written.** -/
theorem lines_unlines_of_plain (h : ∀ l ∈ ls, Plain l) : lines (unlines ls) = ls := by
  rw [lines_unlines_of_noFeed fun l hl => (h l hl).noFeed]
  refine (List.map_congr_left fun l hl => ?_).trans (List.map_id ls)
  exact withoutReturn_eq_self fun hlast => (h l hl).noReturn (List.mem_of_mem_getLast? hlast)

/-- Text behind the last line feed is a line unless it is empty. -/
theorem linesFrom_of_notMem {current line : List Char} (h : '\n' ∉ line) (hne : line ≠ []) :
    linesFrom current line = [current.reverse ++ line] := by
  induction line generalizing current with
  | nil => exact absurd rfl hne
  | cons c cs ih =>
    have hc : c ≠ '\n' := fun heq => h (heq ▸ .head _)
    rw [linesFrom, if_neg hc]
    cases cs with
    | nil => simp [linesFrom]
    | cons d ds =>
      rw [ih (fun hmem => h (.tail _ hmem)) (List.cons_ne_nil d ds), List.reverse_cons, List.append_assoc]
      rfl

theorem linesFrom_intercalate {css : List (List Char)}
    (h : ∀ cs ∈ css, cs ≠ [] ∧ '\n' ∉ cs ∧ cs.getLast? ≠ some '\r') :
    linesFrom [] (['\n'].intercalate css) = css := by
  induction css with
  | nil => rfl
  | cons cs css ih =>
    obtain ⟨hne, hfeed, hend⟩ := h cs (.head _)
    cases css with
    | nil =>
      rw [List.intercalate_singleton, linesFrom_of_notMem hfeed hne]
      rfl
    | cons ds css =>
      have hrest := ih fun es hes => h es (.tail _ hes)
      rw [List.intercalate_cons_cons, List.append_assoc, List.singleton_append,
        linesFrom_append_newline [] cs _ hfeed, List.append_nil, closedLine_reverse hend, hrest]

/-- **Lines with line feeds between them are read as they were written**, unless one is empty, has a line
feed of its own or ends in a carriage return. -/
theorem lines_intercalate
    (h : ∀ l ∈ ls, l ≠ "" ∧ '\n' ∉ l.toList ∧ l.toList.getLast? ≠ some '\r') :
    lines ("\n".intercalate ls) = ls := by
  have hlists : ∀ cs ∈ ls.map String.toList, cs ≠ [] ∧ '\n' ∉ cs ∧ cs.getLast? ≠ some '\r' := by
    intro cs hcs
    obtain ⟨l, hl, rfl⟩ := List.mem_map.mp hcs
    exact (h l hl).imp_left fun hne hnil => hne (String.toList_eq_nil_iff.mp hnil)
  have hfeed : "\n".toList = ['\n'] := rfl
  rw [lines, String.toList_intercalate, hfeed, linesFrom_intercalate hlists, List.map_map]
  simp only [Function.comp_def, String.ofList_toList, List.map_id']

end RepairCorpus.Text
