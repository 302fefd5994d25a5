import RepairCorpus.Corpus.Filter
import RepairCorpus.Proofs.Sequence.Boundaries
import RepairCorpus.Proofs.Text.Words

/-!
# Sequences as lines

A file of sequences has one sequence per line with a space between tokens, and whoever reads it sees words
and not tokens: the length filter counts them, and a model trains on them.  Words and tokens are the same
as long as every token is one word.  Where a token comes from decides this.  The words of the language and
the boundary tokens are words; the texts of a tree may be anything, so it has to be asked of them.  Only of
the source text of a literal nothing is asked but that there is one, because it is squeezed.

* `Node.mem_sequence`: where the tokens of a sequence come from.
* `Node.sequence_survives_line`: **a sequence is read back from its line**, which is one line.
-/

namespace RepairCorpus

/-! ## Where tokens come from -/

theorem Tag.mem_wrap {t : Tag} {token : Token} {ts : List Token} (h : token ∈ t.wrap ts) :
    token ∈ markers ∨ token ∈ ts := by
  unfold wrap at h
  split at h
  next hwrapped =>
    rcases List.mem_append.mp h with h | h
    · rcases List.mem_cons.mp h with rfl | h
      · exact Or.inl (startMarker_mem_markers hwrapped)
      · exact Or.inr h
    · rw [List.mem_singleton.mp h]
      exact Or.inl (endMarker_mem_markers hwrapped)
  next => exact Or.inr h

/-- What pieces write is a token among them or written by one of the parts. -/
theorem Piece.mem_run {ps : List (Piece Node)} {ts : List Token} {t : Token} (h : run ps = .ok ts)
    (ht : t ∈ ts) :
    t ∈ fixed ps ∨ ∃ c ∈ parts ps, ∃ position us, c.tokens position = .ok us ∧ t ∈ us := by
  induction ps generalizing ts with
  | nil =>
    cases h
    exact absurd ht List.not_mem_nil
  | cons p ps ih =>
    cases p with
    | token u =>
      obtain ⟨us, hus, rfl⟩ := run_token_cons_eq_ok_iff.mp h
      rcases List.mem_cons.mp ht with rfl | ht
      · exact Or.inl (.head _)
      · exact (ih hus ht).imp (.tail _) id
    | part position n =>
      obtain ⟨us, vs, hus, hvs, rfl⟩ := run_part_cons_eq_ok_iff.mp h
      rcases List.mem_append.mp ht with ht | ht
      · exact Or.inr ⟨n, .head _, position, us, hus, ht⟩
      · refine (ih hvs ht).imp id ?_
        rintro ⟨c, hc, hwritten⟩
        exact ⟨c, .tail _ hc, hwritten⟩

namespace Node

/-- The tokens of a node are words of the language, boundary tokens and texts of the nodes of its tree. -/
theorem mem_ownTokens {n : Node} {position : Position} {ts : List Token} {t : Token}
    (h : n.ownTokens position = .ok ts) (ht : t ∈ ts) :
    t ∈ language ∨ t ∈ Tag.markers ∨ ∃ m ∈ n.nodes, t ∈ m.form.texts := by
  induction n using Node.induction generalizing position ts with
  | step own underlying form ih =>
    obtain ⟨ps, hps, hrun⟩ := ownTokens_eq_ok_iff.mp h
    rw [nodes_mk]
    rcases Piece.mem_run hrun ht with hfixed | ⟨c, hc, position', us, hus, htus⟩
    · rcases Form.mem_fixed_production hps t hfixed with hword | htext
      · exact Or.inl hword
      · exact Or.inr (Or.inr ⟨_, .head _, htext⟩)
    · obtain ⟨vs, hvs, rfl⟩ := tokens_eq_ok_iff.mp hus
      rw [Form.children_production hps] at hc
      rcases Tag.mem_wrap htus with hmarker | htvs
      · exact Or.inr (Or.inl hmarker)
      · rcases ih c hc hvs htvs with hword | hmarker | ⟨m, hm, htext⟩
        · exact Or.inl hword
        · exact Or.inr (Or.inl hmarker)
        · exact Or.inr (Or.inr ⟨m, .tail _ (List.mem_flatMap.mpr ⟨c, hc, hm⟩), htext⟩)

/-- **Where the tokens of a sequence come from.** -/
theorem mem_sequence {n : Node} {ts : List Token} {t : Token} (h : n.sequence = .ok ts) (ht : t ∈ ts) :
    t ∈ language ∨ t ∈ Tag.markers ∨ ∃ m ∈ n.nodes, t ∈ m.form.texts := by
  obtain ⟨us, hus, rfl⟩ := sequence_eq_ok_iff.mp h
  rcases Tag.mem_wrap ht with hmarker | ht
  · exact Or.inr (Or.inl hmarker)
  · exact mem_ownTokens hus ht

end Node

/-! ## Tokens that are words -/

theorem isWord_of_mem_language : ∀ t ∈ language, Text.IsWord t := by decide

theorem isWord_of_mem_markers : ∀ t ∈ Tag.markers, Text.IsWord t := by decide

/-- Whether a construct comes to words: a name, an operator and the word that opens a declaration are words
themselves, and the source text of a literal is not empty. -/
def Form.Worded {α : Type} : Form α → Prop
  | .literal _ raw _ => raw ≠ ""
  | form => ∀ t ∈ form.texts, Text.IsWord t

theorem Form.Worded.isWord {α : Type} {form : Form α} (h : form.Worded) :
    ∀ t ∈ form.texts, Text.IsWord t := by
  cases form with
  | literal value raw regex =>
    intro t ht
    rw [List.mem_singleton.mp ht]
    exact Text.isWord_squeeze h
  | _ => exact h

/-! ## Lines -/

namespace Node

/-- **A sequence is read back from its line.**  Let the names, the operators and the declaring words of a
tree be words, and let no literal be without source text.  Then the words of the line are the tokens, so
that the length of the line is their number; the line has no line breaks, and no blanks but spaces. -/
theorem sequence_survives_line {n : Node} {ts : List Token} (h : n.sequence = .ok ts)
    (hworded : ∀ m ∈ n.nodes, m.form.Worded) :
    Text.words (lineOf ts) = ts ∧ lineLength (lineOf ts) = ts.length ∧ Text.Plain (lineOf ts) ∧
      ∀ c ∈ (lineOf ts).toList, Text.isBlank c = true → c = ' ' := by
  have hwords : ∀ t ∈ ts, Text.IsWord t := by
    intro t ht
    rcases mem_sequence h ht with hword | hmarker | ⟨m, hm, htext⟩
    · exact isWord_of_mem_language t hword
    · exact isWord_of_mem_markers t hmarker
    · exact (hworded m hm).isWord t htext
  have hsplit : Text.words (lineOf ts) = ts := Text.words_intercalate hwords
  have hblank : ∀ c ∈ (lineOf ts).toList, Text.isBlank c = true → c = ' ' := fun c hc =>
    Text.isBlank_intercalate hwords hc
  refine ⟨hsplit, ?_, Text.plain_of_isBlank hblank, hblank⟩
  rw [lineLength, hsplit]

/-- An updated statement that hands a text over two lines and a regular expression with blanks to a
function. -/
def brokenLiterals : Node :=
  let text : Node := ⟨.inserted, .unknown, .literal (.text "a b") "'a\x0d\x0a\x09b'" none⟩
  let pattern : Node := untagged (.literal .null "/ \u2028x/" (some ⟨some " \u2028x", none⟩))
  let call : Node := untagged (.callExpression (untagged (.identifier "f")) [text, pattern])
  untagged (.program [⟨.updated, .unknown, .expressionStatement call⟩])

/-- The tokens of that statement. -/
def brokenTokens : List Token :=
  ["~UPDATED_START~", "f", "(", "~INSERTED_START~", "'a_b'", "~INSERTED_END~", ",", "/_x/", ")", ";",
    "~UPDATED_END~"]

theorem brokenLiterals_survive_line :
    brokenLiterals.sequence = .ok brokenTokens ∧ (∀ m ∈ brokenLiterals.nodes, m.form.Worded) ∧
      Text.words (lineOf brokenTokens) = brokenTokens ∧ lineLength (lineOf brokenTokens) = 11 ∧
      Text.Plain (lineOf brokenTokens) := by
  have hsequence : brokenLiterals.sequence = .ok brokenTokens := by rfl
  have hworded : ∀ m ∈ brokenLiterals.nodes, m.form.Worded := by
    simp [brokenLiterals, nodes_mk, untagged, Form.children, Form.Worded, Form.texts]
    decide
  obtain ⟨hsplit, hlength, hplain, -⟩ := sequence_survives_line hsequence hworded
  exact ⟨hsequence, hworded, hsplit, hlength, hplain⟩

end Node

end RepairCorpus
