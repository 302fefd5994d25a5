/-!
# Lines of a text

A text file is read as lines.  A line feed ends a line, and a carriage return directly before it
belongs to the line's end as well.  Text after the last line feed is a line of its own, except
when there is none; such a line keeps a carriage return at its end.

* `linesFrom`, `lines`: reading.
* `unlines`: writing, every line ended by a line feed.
-/

namespace RepairCorpus.Text

/-- The line whose reversed characters are `current`, once its line feed has been read: a
carriage return in front of the line feed is part of the end. -/
def closedLine : List Char → List Char
  | '\r' :: cs => cs.reverse
  | cs => cs.reverse

/-- Reads lines; `current` holds the characters of the line under construction in reverse. -/
def linesFrom (current : List Char) : List Char → List (List Char)
  | [] => if current.isEmpty then [] else [current.reverse]
  | c :: cs => if c = '\n' then closedLine current :: linesFrom [] cs else linesFrom (c :: current) cs

/-- The lines of a text. -/
def lines (text : String) : List String :=
  (linesFrom [] text.toList).map String.ofList

/-- Writes each line with a line feed behind it. -/
def unlines (ls : List String) : String :=
  String.join (ls.map (· ++ "\n"))

@[simp] theorem linesFrom_nil : linesFrom [] [] = [] := rfl

/-- A line without line feed in it, followed by one, is read back up to a carriage return. -/
theorem linesFrom_append_newline (current line rest : List Char) (h : '\n' ∉ line) :
    linesFrom current (line ++ '\n' :: rest)
      = closedLine (line.reverse ++ current) :: linesFrom [] rest := by
  induction line generalizing current with
  | nil => simp [linesFrom]
  | cons c cs ih =>
    have hc : c ≠ '\n' := fun e => h (by simp [e])
    have hcs : '\n' ∉ cs := fun m => h (by simp [m])
    simp [linesFrom, hc, ih (c :: current) hcs]

theorem newline_notMem_of_mem_linesFrom {current cs line : List Char} (hcurrent : '\n' ∉ current)
    (h : line ∈ linesFrom current cs) : '\n' ∉ line := by
  induction cs generalizing current with
  | nil =>
    rw [linesFrom] at h
    split at h
    next => exact absurd h List.not_mem_nil
    next =>
      rw [List.mem_singleton.mp h, List.mem_reverse]
      exact hcurrent
  | cons c cs ih =>
    rw [linesFrom] at h
    split at h
    next hc =>
      rcases List.mem_cons.mp h with rfl | h
      · intro hmem
        refine hcurrent ?_
        unfold closedLine at hmem
        split at hmem
        · exact List.mem_cons_of_mem _ (List.mem_reverse.mp hmem)
        · exact List.mem_reverse.mp hmem
      · exact ih List.not_mem_nil h
    next hc =>
      refine ih (fun hmem => ?_) h
      rcases List.mem_cons.mp hmem with heq | hmem
      · exact hc heq.symm
      · exact hcurrent hmem

/-- No line has a line feed in it. -/
theorem newline_notMem_of_mem_lines {text line : String} (h : line ∈ lines text) :
    '\n' ∉ line.toList := by
  obtain ⟨cs, hcs, rfl⟩ := List.mem_map.mp h
  rw [String.toList_ofList]
  exact newline_notMem_of_mem_linesFrom List.not_mem_nil hcs

end RepairCorpus.Text
