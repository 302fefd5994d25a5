import RepairCorpus.Proofs.Sequence.Boundaries
import RepairCorpus.Proofs.Text.Words
import RepairCorpus.Sequence.Change

/-!
# Lines that show a change

Whether a sequence shows an insertion or an update is decided on its line, by a search for the beginnings
of two boundary tokens.  The line knows nothing of the tree, so this is right only if the search finds a
sign exactly where a node has put one.  Three things could go wrong.  A sign could come about where two
tokens meet; it does not, because a space stands between them and a sign has none.  A text of the tree could
hold a sign, and the statements here are about trees in which none does.  And a node could be written
without its boundary tokens; that none is takes an induction over the tree.

The induction is about a test of tokens that no word of the language and no text of the tree passes.  What
passes it are then boundary tokens, and it passes some token of a sequence if the tag of some node shows it
one.

* `Node.any_sequence`: a test of the tokens of a sequence is a test of the tags of the tree.
* `hasChange_lineOf`: the line is searched token by token.
* `Node.hasChange_sequence_iff`: **a line shows a change exactly if a node of the tree is new or updated**.
-/

namespace RepairCorpus

/-! ## Testing tokens -/

section Test

variable {test : Token → Bool}

/-- Whether a tag has a boundary token in sequences that passes a test. -/
def Tag.shows (test : Token → Bool) (t : Tag) : Bool :=
  t.isWrapped && (test t.startMarker || test t.endMarker)

theorem Tag.any_wrap (t : Tag) (ts : List Token) :
    (t.wrap ts).any test = (t.shows test || ts.any test) := by
  unfold wrap shows
  split
  next h =>
    rw [List.cons_append, List.any_cons, List.any_append, List.any_cons, List.any_nil, h, Bool.true_and,
      Bool.or_false, Bool.or_assoc, Bool.or_comm (test t.endMarker)]
  next h => rw [Bool.eq_false_iff.mpr h, Bool.false_and, Bool.false_or]

/-- What pieces write passes a test if one of the tokens among them does or what a part writes does. -/
theorem Piece.any_run {ps : List (Piece Node)} {ts : List Token} {passes : Node → Bool}
    (h : run ps = .ok ts)
    (hparts : ∀ c ∈ parts ps, ∀ position us, c.tokens position = .ok us → us.any test = passes c) :
    ts.any test = ((fixed ps).any test || (parts ps).any passes) := by
  induction ps generalizing ts with
  | nil =>
    cases h
    rfl
  | cons p ps ih =>
    cases p with
    | token t =>
      obtain ⟨us, hus, rfl⟩ := run_token_cons_eq_ok_iff.mp h
      rw [fixed_token_cons, parts_token_cons, List.any_cons, List.any_cons, ih hus hparts, Bool.or_assoc]
    | part position n =>
      obtain ⟨us, vs, hus, hvs, rfl⟩ := run_part_cons_eq_ok_iff.mp h
      have hn : us.any test = passes n := hparts n (.head _) position us hus
      have hrest := ih hvs fun c hc => hparts c (.tail _ hc)
      rw [fixed_part_cons, parts_part_cons, List.any_append, List.any_cons, hn, hrest,
        Bool.or_left_comm]

namespace Node

variable {n : Node} {position : Position} {ts : List Token}

/-- Within the tokens of a node, a test is passed if the tag of a node further below shows it a boundary
token. -/
theorem any_ownTokens (hlanguage : language.any test = false)
    (htexts : ∀ m ∈ n.nodes, m.form.texts.any test = false) (h : n.ownTokens position = .ok ts) :
    ts.any test = (n.children.flatMap nodes).any fun m => m.own.shows test := by
  induction n using Node.induction generalizing position ts with
  | step own underlying form ih =>
    obtain ⟨ps, hps, hrun⟩ := ownTokens_eq_ok_iff.mp h
    have hparts : Piece.parts ps = form.children := Form.children_production hps
    have hfixed : (Piece.fixed ps).any test = false := by
      refine List.any_eq_false.mpr fun t ht => ?_
      rcases Form.mem_fixed_production hps t ht with hword | htext
      · exact List.any_eq_false.mp hlanguage t hword
      · exact List.any_eq_false.mp (htexts ⟨own, underlying, form⟩ (nodes_mk .. ▸ .head _)) t htext
    have hpart : ∀ c ∈ Piece.parts ps, ∀ position us, c.tokens position = .ok us →
        us.any test = c.nodes.any fun m => m.own.shows test := by
      intro c hc position us hus
      obtain ⟨vs, hvs, rfl⟩ := tokens_eq_ok_iff.mp hus
      rw [hparts] at hc
      have hbelow := ih c hc (fun m hm => htexts m ?_) hvs
      · rw [Tag.any_wrap, hbelow, nodes_eq_cons c, List.any_cons]
      · rw [nodes_mk]
        exact .tail _ (List.mem_flatMap.mpr ⟨c, hc, hm⟩)
    rw [Piece.any_run hrun hpart, hfixed, Bool.false_or, hparts, List.any_flatMap]
    rfl

/-- **A test of the tokens of a sequence is a test of the tags of the tree**, if nothing but boundary
tokens can pass it. -/
theorem any_sequence (hlanguage : language.any test = false)
    (htexts : ∀ m ∈ n.nodes, m.form.texts.any test = false) (h : n.sequence = .ok ts) :
    ts.any test = n.effectiveTags.any (Tag.shows test) := by
  obtain ⟨us, hus, rfl⟩ := sequence_eq_ok_iff.mp h
  rw [Tag.any_wrap, any_ownTokens hlanguage htexts hus, effectiveTags, List.any_cons, List.any_map]
  rfl

end Node

end Test

/-! ## Signs of a change -/

/-- Signs are not empty and have no spaces in them. -/
theorem solid_of_mem_changeSigns : ∀ sign ∈ changeSigns, sign ≠ "" ∧ ' ' ∉ sign.toList := by decide

/-- **The line of a sequence is searched token by token.** -/
theorem hasChange_lineOf (ts : List Token) : hasChange (lineOf ts) = ts.any hasChange := by
  rw [Bool.eq_iff_iff, hasChange, List.any_eq_true, List.any_eq_true]
  simp only [hasChange, List.any_eq_true]
  constructor
  · rintro ⟨sign, hsign, hline⟩
    obtain ⟨hne, hsolid⟩ := solid_of_mem_changeSigns sign hsign
    obtain ⟨t, ht, hin⟩ := (Text.contains_intercalate_iff hne hsolid).mp hline
    exact ⟨t, ht, sign, hsign, hin⟩
  · rintro ⟨t, ht, sign, hsign, hin⟩
    obtain ⟨hne, hsolid⟩ := solid_of_mem_changeSigns sign hsign
    exact ⟨sign, hsign, (Text.contains_intercalate_iff hne hsolid).mpr ⟨t, ht, hin⟩⟩

/-- A text shows no change if no sign lies in it. -/
theorem hasChange_eq_false {t : String} (h : ∀ sign ∈ changeSigns, ¬ sign.toList <:+: t.toList) :
    hasChange t = false :=
  List.any_eq_false.mpr fun sign hsign hin => h sign hsign (Text.occursIn_iff.mp hin)

/-- The tags that show a change are those of what is new and what is updated. -/
theorem Tag.shows_hasChange_iff {t : Tag} : t.shows hasChange = true ↔ t = .inserted ∨ t = .updated := by
  cases t <;> decide

namespace Node

variable {n : Node} {ts : List Token}

/-- **A line shows a change exactly if a node of the tree is new or updated.**  Let no sign lie in a name, an
operator, a declaring word or the token of a literal.  Then the line of the sequence has a sign if some node
has one of the two tags, however far below the root it is.  A function declaration at the root that inherited
its tag counts with the tag it inherited. -/
theorem hasChange_sequence_iff (h : n.sequence = .ok ts)
    (htexts : ∀ m ∈ n.nodes, ∀ t ∈ m.form.texts, ∀ sign ∈ changeSigns, ¬ sign.toList <:+: t.toList) :
    hasChange (lineOf ts) = true ↔
      (∃ m ∈ n.nodes, m.own = .inserted ∨ m.own = .updated) ∨
        (n.kind = .functionDeclaration ∧ n.own = .inherited ∧
          (n.underlying = .inserted ∨ n.underlying = .updated)) := by
  have hlanguage : language.any hasChange = false := by decide
  have htexts' : ∀ m ∈ n.nodes, m.form.texts.any hasChange = false := fun m hm =>
    List.any_eq_false.mpr fun t ht =>
      Bool.eq_false_iff.mp (hasChange_eq_false (htexts m hm t ht))
  have hbelow : ((n.children.flatMap nodes).map Node.own).any (Tag.shows hasChange) = true ↔
      ∃ m ∈ n.children.flatMap nodes, m.own = .inserted ∨ m.own = .updated := by
    rw [List.any_map, List.any_eq_true]
    simp only [Function.comp_apply, Tag.shows_hasChange_iff]
  rw [hasChange_lineOf, any_sequence hlanguage htexts' h, effectiveTags, List.any_cons, Bool.or_eq_true,
    hbelow, Tag.shows_hasChange_iff, nodes_eq_cons]
  simp only [List.mem_cons, exists_eq_or_imp]
  by_cases hroot : n.kind = .functionDeclaration ∧ n.own = .inherited
  · have hown : ¬(n.own = .inserted ∨ n.own = .updated) := by
      rw [hroot.2]
      decide
    rw [if_pos hroot, or_iff_right hown, ← and_assoc, and_iff_right hroot, or_comm]
  · have hinherited : ¬(n.kind = .functionDeclaration ∧ n.own = .inherited ∧
        (n.underlying = .inserted ∨ n.underlying = .updated)) := fun h => hroot ⟨h.1, h.2.1⟩
    rw [if_neg hroot, or_iff_left hinherited]

/-- A function that was moved as a whole.  In it a call is removed, an argument of that call has a tag of
its own, and another function has inherited an update. -/
def movedFunction (argument : Tag) : Node :=
  let call : Node := ⟨.removed, .unknown,
    .callExpression (untagged (.identifier "f")) [⟨argument, .unknown, .identifier "x"⟩]⟩
  let inner : Node := ⟨.inherited, .updated, .functionDeclaration none [] (untagged (.blockStatement []))⟩
  ⟨.inherited, .moved, .functionDeclaration none []
    (untagged (.blockStatement [inner, untagged (.expressionStatement call)]))⟩

/-- Its line shows a change if the argument is new and none if the argument was moved: neither what was
removed nor what a function further below inherited counts. -/
theorem movedFunction_hasChange : ∃ shown hidden,
    (movedFunction .inserted).sequence = .ok shown ∧ hasChange (lineOf shown) = true ∧
    (movedFunction .moved).sequence = .ok hidden ∧ ¬ hasChange (lineOf hidden) = true := by
  have htexts : ∀ t ∈ [Tag.inserted, .moved], ∀ m ∈ (movedFunction t).nodes, ∀ text ∈ m.form.texts,
      ∀ sign ∈ changeSigns, ¬ sign.toList <:+: text.toList := by decide
  have hinserted := hasChange_sequence_iff (n := movedFunction .inserted) rfl (htexts _ (.head _))
  have hmoved := hasChange_sequence_iff (n := movedFunction .moved) rfl (htexts _ (.tail _ (.head _)))
  exact ⟨_, _, rfl, hinserted.mpr (Or.inl (by decide)), rfl, mt hmoved.mp (by decide)⟩

end Node

end RepairCorpus
