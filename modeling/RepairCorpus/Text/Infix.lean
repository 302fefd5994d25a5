/-!
# Texts within texts

A line of tokens is searched for the beginnings of boundary tokens.  The search is for the
characters wherever they stand, also in the middle of a token.
-/

namespace RepairCorpus.Text

/-- Whether some characters occur, side by side, among others. -/
def occursIn (pattern : List Char) : List Char → Bool
  | [] => pattern.isEmpty
  | c :: cs => pattern.isPrefixOf (c :: cs) || occursIn pattern cs

/-- Whether a text contains another one. -/
def contains (text pattern : String) : Bool := occursIn pattern.toList text.toList

/-- Occurring means that a part of the list, without gaps, is the pattern. -/
theorem occursIn_iff {pattern cs : List Char} : occursIn pattern cs = true ↔ pattern <:+: cs := by
  induction cs with
  | nil => simp [occursIn, List.isEmpty_iff]
  | cons c cs ih =>
    rw [occursIn, Bool.or_eq_true, List.isPrefixOf_iff_prefix, ih, List.infix_cons_iff]

end RepairCorpus.Text
