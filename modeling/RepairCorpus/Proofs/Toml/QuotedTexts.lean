import Mathlib.Data.List.Infix
import RepairCorpus.Toml.Quoted

/-!
# Quoted texts are read back

A text in quotes is read as the text, whatever characters it has and in whichever of the four forms it is
written.  A form that holds the text without escapes has been chosen because the text has nothing in it that
would end it early or be taken for an escape; in the other forms every such character is an escape.

The one point where the characters of the text and the delimiter meet is a quotation mark at the end of a text
over lines: two marks of the text and the three that close it are five in a row, and the reader gives the first
two to the text (`readLines_marks`).

* `readLine_body`, `readLines_body`: texts with escapes.
* `readLine_literal`, `readLines_literal`: texts without.
* `read?_write`: **a quoted text is read as what was written**, in front of anything but a quotation mark.
-/

namespace RepairCorpus.Toml

/-! ## Escapes -/

theorem hexDigits_toList : "0123456789ABCDEF".toList =
    ['0', '1', '2', '3', '4', '5', '6', '7', '8', '9', 'A', 'B', 'C', 'D', 'E', 'F'] := by simp

theorem hexValue?_hexDigit {n : Nat} (h : n < 16) : Text.hexValue? (hexDigit n) = some n := by
  have hall : ∀ n < 16, Text.hexValue? (['0', '1', '2', '3', '4', '5', '6', '7', '8', '9', 'A', 'B', 'C',
      'D', 'E', 'F'].getD n '0') = some n := by decide
  rw [hexDigit, hexDigits_toList]
  exact hall n h

/-- Four digits are enough for a character below sixteen to the fourth. -/
theorem charOfHex?_unicode {c : Char} (h : c.toNat < 65536) :
    charOfHex? [hexDigit (c.toNat / 4096 % 16), hexDigit (c.toNat / 256 % 16), hexDigit (c.toNat / 16 % 16),
      hexDigit (c.toNat % 16)] = some c := by
  have hdigit (n : Nat) : Text.hexValue? (hexDigit (n % 16)) = some (n % 16) :=
    hexValue?_hexDigit (Nat.mod_lt n (by decide))
  have hvalue : 16 * (16 * (16 * (16 * 0 + c.toNat / 4096 % 16) + c.toNat / 256 % 16) + c.toNat / 16 % 16)
      + c.toNat % 16 = c.toNat := by omega
  simp only [charOfHex?, hexFrom, hdigit, Option.bind_some, hvalue]
  have hvalid : c.toNat.isValidChar := c.valid
  rw [if_pos hvalid, Char.ofNat_toNat]

theorem toNat_lt_of_isControl {c : Char} (h : isControl c = true) : c.toNat < 65536 := by
  simp only [isControl, Bool.or_eq_true, Bool.and_eq_true, decide_eq_true_eq] at h
  omega

/-! ## Texts on one line -/

section OneLine

variable {c : Char} {cs rest : List Char}

theorem readLine_mark (f : Form) : readLine f (f.mark :: rest) = some ([], rest) := by
  cases f <;> simp [readLine, Form.mark]

/-- A character that stands for itself. -/
theorem readLine_plain {f : Form} (hmark : c ≠ f.mark) (hescape : c ≠ '\\' ∨ f.escapes = false)
    (h : f.admits c = true) : readLine f (c :: cs) = prepend c (readLine f cs) := by
  rw [readLine.eq_def]
  split
  all_goals simp_all

/-- What has been written for a character is read as that character. -/
theorem readLine_escaped (h : c ≠ '"') :
    readLine .basic (escaped .basic c ++ cs) = prepend c (readLine .basic cs) := by
  unfold escaped
  split
  case h_7 hb ht hn hf hr hs =>
    split
    next hcontrol =>
      show readLine .basic ('\\' :: 'u' :: _ :: _ :: _ :: _ :: cs) = _
      have hescapes : Form.basic.escapes = true := rfl
      rw [readLine, if_pos hescapes, charOfHex?_unicode (toNat_lt_of_isControl hcontrol), Option.bind_some]
    next hcontrol =>
      refine readLine_plain h (.inl hs) ?_
      simpa [Form.admits, hcontrol] using Or.inr hn
  all_goals rfl

/-- A text with escapes. -/
theorem readLine_body (run : Nat) : readLine .basic (body .basic run cs ++ '"' :: rest) = some (cs, rest) := by
  induction cs generalizing run with
  | nil => exact readLine_mark .basic
  | cons c cs ih =>
    by_cases hc : c = '"'
    · subst hc
      have hstep : readLine .basic ('\\' :: '"' :: (body .basic 0 cs ++ '"' :: rest))
          = prepend '"' (readLine .basic (body .basic 0 cs ++ '"' :: rest)) := rfl
      exact hstep.trans (congrArg (prepend '"') (ih 0))
    · rw [body, if_neg hc, List.append_assoc, readLine_escaped hc, ih]
      rfl

/-- A text without escapes. -/
theorem readLine_literal (h : ∀ c ∈ cs, c ≠ '\'' ∧ Form.literal.admits c = true) :
    readLine .literal (cs ++ '\'' :: rest) = some (cs, rest) := by
  induction cs with
  | nil => exact readLine_mark .literal
  | cons c cs ih =>
    obtain ⟨⟨hmark, hadmits⟩, hcs⟩ := List.forall_mem_cons.mp h
    rw [List.cons_append, readLine_plain hmark (.inr rfl) hadmits, ih hcs]
    rfl

end OneLine

/-! ## Texts over lines -/

section OverLines

variable {f : Form} {c : Char} {cs rest : List Char}

/-- **Up to two marks in front of the closing ones belong to the text.** -/
theorem readLines_marks {k : Nat} (hk : k ≤ 2) (hrest : rest.head? ≠ some f.mark) :
    readLines f .inside (List.replicate k f.mark ++ (List.replicate 3 f.mark ++ rest))
      = some (List.replicate k f.mark, rest) := by
  have hk' : k = 0 ∨ k = 1 ∨ k = 2 := by omega
  cases rest with
  | nil => rcases hk' with rfl | rfl | rfl <;> rw [readLines.eq_def] <;> simp [List.replicate]
  | cons c cs =>
    have hc : c ≠ f.mark := fun hc => hrest (congrArg some hc)
    rcases hk' with rfl | rfl | rfl <;> rw [readLines.eq_def] <;> simp [List.replicate, hc]
    cases cs <;> simp [hc]

/-- A mark that is not the first of three. -/
theorem readLines_mark (h : ¬ [f.mark, f.mark] <+: cs) :
    readLines f .inside (f.mark :: cs) = prepend f.mark (readLines f .inside cs) := by
  rw [readLines.eq_def]
  rcases cs with _ | ⟨d, _ | ⟨e, cs⟩⟩
  · simp
  · simp
  · have hde : ¬ (d = f.mark ∧ e = f.mark) := by
      rintro ⟨rfl, rfl⟩
      exact h ⟨cs, rfl⟩
    simp [hde]

/-- A character that stands for itself. -/
theorem readLines_plain (hmark : c ≠ f.mark) (hescape : c ≠ '\\' ∨ f.escapes = false)
    (h : f.admits c = true) : readLines f .inside (c :: cs) = prepend c (readLines f .inside cs) := by
  have hfree : ¬ (c = '\\' ∧ f.escapes = true) := by
    rintro ⟨hc, hf⟩
    rcases hescape with hne | hnone
    · exact hne hc
    · exact absurd (hf.symm.trans hnone) (by decide)
  rw [readLines.eq_def]
  simp [hmark, hfree, h]

/-- Where two marks stand in front of the end, either they belong to the text or the text is at its end. -/
theorem marks_at_end {m : Char} (h : [m, m] <+: cs ++ (List.replicate 3 m ++ rest)) :
    cs = [] ∨ cs = [m] ∨ [m, m] <+: cs := by
  rcases cs with _ | ⟨d, _ | ⟨e, cs⟩⟩
  · exact .inl rfl
  · obtain ⟨hd, -⟩ := List.cons_prefix_cons.mp h
    exact .inr (.inl (hd ▸ rfl))
  · obtain ⟨hd, h⟩ := List.cons_prefix_cons.mp h
    obtain ⟨he, -⟩ := List.cons_prefix_cons.mp h
    exact .inr (.inr ⟨cs, by rw [← hd, ← he]; rfl⟩)

/-- A text without escapes. -/
theorem readLines_literal (hrest : rest.head? ≠ some '\'')
    (hadmits : ∀ c ∈ cs, Form.literalLines.admits c = true) (hmarks : ¬ ['\'', '\'', '\''] <:+: cs) :
    readLines .literalLines .inside (cs ++ (['\'', '\'', '\''] ++ rest)) = some (cs, rest) := by
  induction cs with
  | nil => exact readLines_marks (k := 0) (by decide) hrest
  | cons c cs ih =>
    obtain ⟨hc, hcs⟩ := List.forall_mem_cons.mp hadmits
    have hstep := ih hcs fun h => hmarks (h.trans (List.suffix_cons c cs).isInfix)
    by_cases hmark : c = '\''
    · subst hmark
      by_cases hend : ['\'', '\''] <+: cs ++ (['\'', '\'', '\''] ++ rest)
      · rcases marks_at_end hend with rfl | rfl | hthree
        · exact readLines_marks (k := 1) (by decide) hrest
        · exact readLines_marks (k := 2) (by decide) hrest
        · exact absurd (List.cons_prefix_cons.mpr ⟨rfl, hthree⟩).isInfix hmarks
      · exact (readLines_mark (f := .literalLines) hend).trans (congrArg (prepend '\'') hstep)
    · rw [List.cons_append, readLines_plain hmark (.inr rfl) hc, hstep]
      rfl

/-- What has been written for a character is read as that character. -/
theorem readLines_escaped (h : c ≠ '"') :
    readLines .basicLines .inside (escaped .basicLines c ++ cs)
      = prepend c (readLines .basicLines .inside cs) := by
  unfold escaped
  split
  case h_7 hb ht hn hf hr hs =>
    split
    next hcontrol =>
      show readLines .basicLines .inside ('\\' :: 'u' :: _ :: _ :: _ :: _ :: cs) = _
      rw [readLines.eq_def]
      simp [Form.mark, Form.escapes, charOfHex?_unicode (toNat_lt_of_isControl hcontrol)]
    next hcontrol =>
      refine readLines_plain h (.inl hs) ?_
      simpa [Form.admits, hcontrol] using Or.inr hn
  all_goals
    rw [readLines.eq_def]
    simp [Form.mark, Form.escapes, Form.spansLines, Form.admits, charOfEscape?, isControl]

/-- What is written for a character begins with that character or with a backslash. -/
theorem exists_escaped_eq_cons (f : Form) (c : Char) :
    ∃ d ds, escaped f c = d :: ds ∧ (d = '\\' ∨ d = c) := by
  unfold escaped
  split
  case h_3 =>
    split
    · exact ⟨_, _, rfl, .inr rfl⟩
    · exact ⟨_, _, rfl, .inl rfl⟩
  case h_7 =>
    split
    · exact ⟨_, _, rfl, .inl rfl⟩
    · exact ⟨_, _, rfl, .inr rfl⟩
  all_goals exact ⟨_, _, rfl, .inl rfl⟩

theorem body_of_ne (run : Nat) (h : c ≠ '"') : body f run (c :: cs) = escaped f c ++ body f 0 cs := by
  rw [body, if_neg h]

/-- Two marks may stand side by side. -/
theorem body_mark {run : Nat} (h : run < 2) :
    body .basicLines run ('"' :: cs) = '"' :: body .basicLines (run + 1) cs := by
  have hrun : run < if Form.basicLines.spansLines then 2 else 0 := h
  rw [body, if_pos rfl, if_pos hrun]

/-- The third is escaped. -/
theorem body_third {run : Nat} (h : ¬ run < 2) :
    body .basicLines run ('"' :: cs) = '\\' :: '"' :: body .basicLines 0 cs := by
  have hrun : ¬ run < if Form.basicLines.spansLines then 2 else 0 := h
  rw [body, if_pos rfl, if_neg hrun]

theorem eq_nil_of_body {run : Nat} (h : body .basicLines run cs = []) : cs = [] := by
  cases cs with
  | nil => rfl
  | cons c cs =>
    by_cases hc : c = '"'
    · subst hc
      by_cases hrun : run < 2
      · cases (body_mark hrun).symm.trans h
      · cases (body_third hrun).symm.trans h
    · obtain ⟨d, ds, heq, -⟩ := exists_escaped_eq_cons .basicLines c
      rw [body_of_ne run hc, heq] at h
      cases h

/-- A mark without an escape is a mark of the text, and one of its first two. -/
theorem body_eq_mark_cons {run : Nat} {ds : List Char} (h : body .basicLines run cs = '"' :: ds) :
    run < 2 ∧ ∃ cs', cs = '"' :: cs' ∧ body .basicLines (run + 1) cs' = ds := by
  cases cs with
  | nil => cases h
  | cons c cs =>
    by_cases hc : c = '"'
    · subst hc
      by_cases hrun : run < 2
      · exact ⟨hrun, cs, rfl, (List.cons.inj ((body_mark hrun).symm.trans h)).2⟩
      · cases (List.cons.inj ((body_third hrun).symm.trans h)).1
    · obtain ⟨d, ds', heq, hd⟩ := exists_escaped_eq_cons .basicLines c
      rw [body_of_ne run hc, heq] at h
      obtain rfl := (List.cons.inj h).1
      rcases hd with hd | hd
      · cases hd
      · exact absurd hd.symm hc

/-- A text with escapes. -/
theorem readLines_body (hrest : rest.head? ≠ some '"') (run : Nat) :
    readLines .basicLines .inside (body .basicLines run cs ++ (['"', '"', '"'] ++ rest)) = some (cs, rest) := by
  induction cs generalizing run with
  | nil => exact readLines_marks (k := 0) (by decide) hrest
  | cons c cs ih =>
    by_cases hc : c = '"'
    · subst hc
      by_cases hrun : run < 2
      · rw [body_mark hrun]
        by_cases hend : ['"', '"'] <+: body .basicLines (run + 1) cs ++ (['"', '"', '"'] ++ rest)
        · rcases marks_at_end hend with hnil | hone | ⟨ds, htwo⟩
          · obtain rfl := eq_nil_of_body hnil
            exact readLines_marks (k := 1) (by decide) hrest
          · obtain ⟨hrun', cs, rfl, hnil⟩ := body_eq_mark_cons hone
            obtain rfl := eq_nil_of_body hnil
            rw [body_mark hrun']
            exact readLines_marks (k := 2) (by decide) hrest
          · obtain ⟨-, cs, rfl, hone⟩ := body_eq_mark_cons htwo.symm
            obtain ⟨hrun', -⟩ := body_eq_mark_cons hone
            omega
        · exact (readLines_mark (f := .basicLines) hend).trans (congrArg (prepend '"') (ih _))
      · have hstep (X : List Char) : readLines .basicLines .inside ('\\' :: '"' :: X)
            = prepend '"' (readLines .basicLines .inside X) := by
          rw [readLines.eq_def]
          simp [Form.mark, Form.escapes, charOfEscape?]
        rw [body_third hrun]
        exact (hstep _).trans (congrArg (prepend '"') (ih 0))
    · rw [body_of_ne run hc, List.append_assoc, readLines_escaped hc, ih]
      rfl

end OverLines

/-! ## The form that is chosen -/

section Runs

variable {c : Char} {cs : List Char} {run most k : Nat}

theorem most_le_longestRun (c : Char) (run most : Nat) (cs : List Char) :
    most ≤ longestRun c run most cs := by
  induction cs generalizing run most with
  | nil => exact Nat.le_refl most
  | cons d cs ih =>
    rw [longestRun]
    split
    · exact (Nat.le_max_left most (run + 1)).trans (ih _ _)
    · exact ih _ _

theorem le_longestRun_of_leading (h : List.replicate k c <+: cs) (hrun : run ≤ most) :
    run + k ≤ longestRun c run most cs := by
  induction k generalizing run most cs with
  | zero => exact hrun.trans (most_le_longestRun c run most cs)
  | succ k ih =>
    obtain ⟨ds, rfl⟩ := h
    have hstep := ih ⟨ds, rfl⟩ (Nat.le_max_right most (run + 1))
    rw [List.replicate_succ, List.cons_append, longestRun, if_pos rfl]
    omega

/-- A run somewhere in a text is no longer than the longest. -/
theorem le_longestRun (h : List.replicate k c <:+: cs) (hrun : run ≤ most) :
    k ≤ longestRun c run most cs := by
  induction cs generalizing run most with
  | nil =>
    obtain rfl : k = 0 := by simpa using List.infix_nil.mp h
    exact Nat.zero_le _
  | cons d cs ih =>
    rcases List.infix_cons_iff.mp h with hprefix | hinfix
    · exact (Nat.le_add_left k run).trans (le_longestRun_of_leading hprefix hrun)
    · rw [longestRun]
      split
      · exact ih hinfix (Nat.le_max_right most (run + 1))
      · exact ih hinfix (Nat.zero_le most)

end Runs

section Written

variable {f : Form} {cs ds rest : List Char}

/-- The form that is chosen has escapes or holds the text without. -/
theorem escapes_or_holds_formFor (cs : List Char) :
    (formFor cs).escapes = true ∨ (formFor cs).holds cs = true := by
  rw [formFor]
  split
  next f hf => exact .inr (List.find?_some (p := fun f : Form => f.holds cs) hf)
  next =>
    split
    · exact .inl rfl
    · exact .inl rfl

theorem admits_of_holds (h : f.holds cs = true) : ∀ c ∈ cs, f.admits c = true := by
  rw [Form.holds, Bool.and_eq_true, Bool.and_eq_true] at h
  exact List.all_eq_true.mp h.1.1

/-- A text that a form holds has fewer marks side by side than its delimiter. -/
theorem not_infix_of_holds (h : f.holds cs = true) : ¬ f.delimiter <:+: cs := by
  intro hinfix
  have hlength := le_longestRun hinfix (Nat.le_refl 0)
  rw [Form.holds, Bool.and_eq_true, decide_eq_true_eq] at h
  have hfew := h.2
  split at hfew <;> simp_all
  omega

/-! ## Reading what was written -/

theorem read?_basic (h : ¬ ['"', '"'] <+: ds) :
    read? true ('"' :: ds) = (readLine .basic ds).map fun x => (String.ofList x.1, x.2) := by
  rw [read?.eq_def]
  split
  next heq => exact absurd ⟨_, (List.cons.inj heq).2.symm⟩ h
  next heq => cases (List.cons.inj heq).1
  next heq => rw [(List.cons.inj heq).2]
  next heq => cases (List.cons.inj heq).1
  next hno _ => exact absurd rfl (hno ds)

theorem read?_literal (h : ¬ ['\'', '\''] <+: ds) :
    read? true ('\'' :: ds) = (readLine .literal ds).map fun x => (String.ofList x.1, x.2) := by
  rw [read?.eq_def]
  split
  next heq => cases (List.cons.inj heq).1
  next heq => exact absurd ⟨_, (List.cons.inj heq).2.symm⟩ h
  next heq => cases (List.cons.inj heq).1
  next heq => rw [(List.cons.inj heq).2]
  next hno => exact absurd rfl (hno ds)

/-- A line feed that was put in front of a text over lines is dropped, and none that was not. -/
theorem dropLineFeed_append (h : cs.contains '\n' = false → ds.head? ≠ some '\n') :
    dropLineFeed ((if cs.contains '\n' then ['\n'] else []) ++ ds) = ds := by
  split
  next => rfl
  next hno =>
    have hhead := h (by simpa using hno)
    rw [List.nil_append]
    rw [dropLineFeed.eq_def]
    split
    next => exact absurd rfl hhead
    next => rfl

/-- What is written for a text begins with a mark over lines only, and with a character of the text unless it
is an escape. -/
theorem head?_body {run : Nat} {d : Char} (h : (body f run cs).head? = some d) :
    (d = '"' ∧ f.spansLines = true) ∨ d = '\\' ∨ (d ≠ '"' ∧ d ∈ cs) := by
  cases cs with
  | nil => cases h
  | cons c cs =>
    by_cases hc : c = '"'
    · rw [body, if_pos hc] at h
      cases hspans : f.spansLines with
      | true =>
        rw [hspans, if_pos rfl] at h
        split at h
        next => exact .inl ⟨(Option.some.inj h).symm, rfl⟩
        next => exact .inr (.inl (Option.some.inj h).symm)
      | false =>
        rw [hspans, if_neg Bool.false_ne_true, if_neg (Nat.not_lt_zero run)] at h
        exact .inr (.inl (Option.some.inj h).symm)
    · obtain ⟨e, es, heq, he⟩ := exists_escaped_eq_cons f c
      rw [body_of_ne run hc, heq] at h
      obtain rfl : e = d := Option.some.inj h
      rcases he with rfl | rfl
      · exact .inr (.inl rfl)
      · exact .inr (.inr ⟨hc, .head _⟩)

theorem not_prefix_of_head? {m : Char} (hds : ds.head? ≠ some m) (hrest : rest.head? ≠ some m) :
    ¬ [m, m] <+: ds ++ m :: rest := by
  rintro ⟨t, ht⟩
  cases ds with
  | nil => exact hrest (congrArg List.head? (List.cons.inj ht).2.symm)
  | cons d ds => exact hds (congrArg some (List.cons.inj ht).1.symm)

theorem head?_append_ne {d : Char} (hcs : cs.head? ≠ some d) (hds : ds.head? ≠ some d) :
    (cs ++ ds).head? ≠ some d := by
  cases cs with
  | nil => exact hds
  | cons c cs => exact hcs

/-- A text is read as what was written, if it was written in a form for it. -/
theorem read?_writeAs (hf : f.escapes = true ∨ f.holds cs = true)
    (hbasic : rest.head? ≠ some '"') (hliteral : rest.head? ≠ some '\'') :
    read? true (writeAs f cs ++ rest) = some (String.ofList cs, rest) := by
  cases f with
  | basic =>
    have hwritten : writeAs .basic cs ++ rest = '"' :: (body .basic 0 cs ++ '"' :: rest) := by
      simp [writeAs, Form.delimiter, Form.spansLines, Form.escapes, Form.mark]
    have hopen : ¬ ['"', '"'] <+: body .basic 0 cs ++ '"' :: rest := by
      refine not_prefix_of_head? (fun hhead => ?_) hbasic
      rcases head?_body hhead with ⟨-, hspans⟩ | hne | ⟨hne, -⟩
      · cases hspans
      · cases hne
      · exact hne rfl
    rw [hwritten, read?_basic hopen, readLine_body]
    rfl
  | literal =>
    have hholds : Form.literal.holds cs = true := hf.resolve_left (by decide)
    have hwritten : writeAs .literal cs ++ rest = '\'' :: (cs ++ '\'' :: rest) := by
      simp [writeAs, Form.delimiter, Form.spansLines, Form.escapes, Form.mark]
    have hmark : '\'' ∉ cs := fun hmem =>
      not_infix_of_holds hholds ((List.singleton_infix_iff _ _).mpr hmem)
    have hopen : ¬ ['\'', '\''] <+: cs ++ '\'' :: rest :=
      not_prefix_of_head? (fun hhead => hmark (List.mem_of_head? hhead)) hliteral
    have hchars : ∀ c ∈ cs, c ≠ '\'' ∧ Form.literal.admits c = true := fun c hc =>
      ⟨fun heq => hmark (heq ▸ hc), admits_of_holds hholds c hc⟩
    rw [hwritten, read?_literal hopen, readLine_literal hchars]
    rfl
  | basicLines =>
    have hwritten : writeAs .basicLines cs ++ rest = '"' :: '"' :: '"' ::
        ((if cs.contains '\n' then ['\n'] else []) ++ (body .basicLines 0 cs ++ (['"', '"', '"'] ++ rest))) := by
      simp [writeAs, Form.delimiter, Form.spansLines, Form.escapes, Form.mark, List.replicate]
    have hhead (hfeed : cs.contains '\n' = false) :
        (body .basicLines 0 cs ++ (['"', '"', '"'] ++ rest)).head? ≠ some '\n' := by
      refine head?_append_ne (fun hhead => ?_) fun hhead => absurd (Option.some.inj hhead) (by decide)
      rcases head?_body hhead with ⟨hne, -⟩ | hne | ⟨-, hmem⟩
      · cases hne
      · cases hne
      · rw [List.contains_eq_mem, decide_eq_false_iff_not] at hfeed
        exact hfeed hmem
    rw [hwritten, read?, if_pos rfl, dropLineFeed_append hhead, readLines_body hbasic]
    rfl
  | literalLines =>
    have hholds : Form.literalLines.holds cs = true := hf.resolve_left (by decide)
    have hwritten : writeAs .literalLines cs ++ rest = '\'' :: '\'' :: '\'' ::
        ((if cs.contains '\n' then ['\n'] else []) ++ (cs ++ (['\'', '\'', '\''] ++ rest))) := by
      simp [writeAs, Form.delimiter, Form.spansLines, Form.escapes, Form.mark, List.replicate]
    have hhead (hfeed : cs.contains '\n' = false) :
        (cs ++ (['\'', '\'', '\''] ++ rest)).head? ≠ some '\n' := by
      rw [List.contains_eq_mem, decide_eq_false_iff_not] at hfeed
      exact head?_append_ne (fun hhead => hfeed (List.mem_of_head? hhead))
        fun hhead => absurd (Option.some.inj hhead) (by decide)
    rw [hwritten, read?, if_pos rfl, dropLineFeed_append hhead,
      readLines_literal hliteral (admits_of_holds hholds) (not_infix_of_holds hholds)]
    rfl

/-- **A quoted text is read as the text**, in front of anything but a quotation mark. -/
theorem read?_write (s : String) (hbasic : rest.head? ≠ some '"') (hliteral : rest.head? ≠ some '\'') :
    read? true ((write s).toList ++ rest) = some (s, rest) := by
  rw [write, String.toList_ofList, read?_writeAs (escapes_or_holds_formFor s.toList) hbasic hliteral,
    String.ofList_toList]

/-! ## Carriage returns

A carriage return of a text is written as an escape in every form that can hold it. -/

theorem return_notMem_escaped (f : Form) (c : Char) : '\r' ∉ escaped f c := by
  have hdigit (n : Nat) : hexDigit (n % 16) ≠ '\r' := by
    intro heq
    have hvalue := hexValue?_hexDigit (Nat.mod_lt n (show 16 > 0 by decide))
    rw [heq] at hvalue
    cases hvalue
  unfold escaped
  split
  case h_3 => split <;> decide
  case h_7 hb ht hn hf hr hs =>
    split
    · simp [unicodeEscape, Ne.symm (hdigit _)]
    · exact fun hmem => hr (List.mem_singleton.mp hmem).symm
  all_goals decide

theorem return_notMem_body (f : Form) (run : Nat) (cs : List Char) : '\r' ∉ body f run cs := by
  induction cs generalizing run with
  | nil => exact List.not_mem_nil
  | cons c cs ih =>
    by_cases hc : c = '"'
    · rw [body, if_pos hc]
      generalize (if f.spansLines then 2 else 0) = bound
      split
      · simp [ih]
      · simp [ih]
    · rw [body_of_ne run hc, List.mem_append, not_or]
      exact ⟨return_notMem_escaped f c, ih 0⟩

/-- **A quoted text has no carriage return.** -/
theorem return_notMem_write (s : String) : '\r' ∉ (write s).toList := by
  rw [write, String.toList_ofList]
  have hf := escapes_or_holds_formFor s.toList
  generalize formFor s.toList = f at hf
  have hinner : '\r' ∉ if f.escapes then body f 0 s.toList else s.toList := by
    split
    next => exact return_notMem_body f 0 s.toList
    next hno =>
      intro hmem
      have hadmits := admits_of_holds (hf.resolve_left hno) '\r' hmem
      rw [Form.admits] at hadmits
      cases hadmits
  have hdelimiter : '\r' ∉ f.delimiter := by cases f <;> decide
  simp only [writeAs, List.mem_append, not_or]
  refine ⟨⟨⟨hdelimiter, ?_⟩, hinner⟩, hdelimiter⟩
  split <;> decide

end Written

end RepairCorpus.Toml
