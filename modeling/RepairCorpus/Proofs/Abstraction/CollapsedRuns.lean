import RepairCorpus.Proofs.Abstraction.Stretches

/-!
# Collapsed runs

Collapsing deep constructs replaces runs of a sequence by single tokens, whatever map says which
kinds are collapsed: `Node.collapse_cuts_runs`.  The stretches of the sequence say where the runs
are, and most of the statement is read off `Node.cuts_tracedSequence` and `Node.collapse_eq`.

What is left is a matter of lengths.  A map may collapse a kind whose nodes write no token or a
single one, and then the sequence does not get shorter.  The default map collapses functions and
object literals, and these write two tokens at least, their parentheses or braces, so every
placeholder saves a token.
-/

namespace RepairCorpus

/-! ## What the default placeholders stand for -/

/-- The fixed tokens of pieces are among the tokens that are written. -/
theorem Piece.fixed_sublist_of_run {ps : List (Piece Node)} {ts : List Token}
    (h : run ps = .ok ts) : (fixed ps).Sublist ts := by
  induction ps generalizing ts with
  | nil => exact List.nil_sublist ts
  | cons p ps ih =>
    cases p with
    | token t =>
      obtain ⟨us, hus, rfl⟩ := run_token_cons_eq_ok_iff.mp h
      exact (ih hus).cons_cons t
    | part position n =>
      obtain ⟨us, vs, -, hvs, rfl⟩ := run_part_cons_eq_ok_iff.mp h
      exact (ih hvs).trans (List.sublist_append_right us vs)

/-- Functions and object literals have two fixed tokens at least. -/
theorem Form.two_le_length_fixed {α : Type} {form : Form α} {position : Position}
    {ps : List (Piece α)} {name : String} (hname : defaultPlaceholders form.kind = some name)
    (h : form.production position = .ok ps) : 2 ≤ (Piece.fixed ps).length := by
  have hfunction (id : Option α) (params : List α) (body : α) :
      2 ≤ (Piece.fixed (functionPieces id params body)).length := by
    simp [functionPieces]
  cases form <;> try cases hname
  case functionDeclaration id params body =>
    cases position <;> cases h <;> exact hfunction id params body
  case functionExpression id params body =>
    cases position <;> cases h
    exact hfunction id params body
  case objectExpression properties =>
    cases position <;> cases h
    simp

/-- The production of a function or an object literal writes two tokens at least. -/
theorem Node.two_le_length_ownTrace {n : Node} {position : Position} {ts : List Traced}
    {name : String} (hname : defaultPlaceholders n.kind = some name)
    (h : n.ownTrace position = .ok ts) : 2 ≤ ts.length := by
  obtain ⟨ps, hps, hrun⟩ := ownTokens_eq_ok_iff.mp (ownTokens_of_ownTrace h)
  calc 2 ≤ (Piece.fixed ps).length := Form.two_le_length_fixed hname hps
    _ ≤ (ts.map Traced.token).length := (Piece.fixed_sublist_of_run hrun).length_le
    _ = ts.length := List.length_map _

/-! ## Lengths -/

/-- Boundary tokens lengthen all runs alike. -/
theorem Tag.length_enclose_lt {t : Tag} {ts us : List Traced} (h : us.length < ts.length) :
    (t.enclose us).length < (t.enclose ts).length := by
  unfold enclose
  split
  · simp only [List.cons_append, List.length_cons, List.length_append, List.length_nil]
    omega
  · exact h

/-- A stretch that is cut out gets shorter if its run has two tokens at least, and no other stretch
changes. -/
theorem Stretch.length_after_le {stretches : List Stretch}
    (h : ∀ p m name run, Stretch.cut p m name run ∈ stretches → 2 ≤ run.length) :
    (stretches.flatMap Stretch.after).length + (stretches.filterMap Stretch.path?).length
      ≤ (stretches.flatMap Stretch.before).length := by
  induction stretches with
  | nil => exact Nat.le_refl 0
  | cons s stretches ih =>
    have hrest := ih fun p m name run hs => h p m name run (List.mem_cons_of_mem _ hs)
    rw [List.flatMap_cons, List.flatMap_cons, List.length_append, List.length_append]
    cases s with
    | kept t =>
      have hpaths : (Stretch.kept t :: stretches).filterMap Stretch.path?
          = stretches.filterMap Stretch.path? := rfl
      rw [hpaths, Stretch.after, Stretch.before, List.length_singleton]
      omega
    | cut p m name run =>
      have hrun : (m.own.enclose [⟨name, [], false⟩]).length < (m.own.enclose run).length :=
        Tag.length_enclose_lt (h p m name run List.mem_cons_self)
      have hpaths : (Stretch.cut p m name run :: stretches).filterMap Stretch.path?
          = p :: stretches.filterMap Stretch.path? := rfl
      rw [hpaths, List.length_cons, Stretch.after, Stretch.before, List.length_map, List.length_map]
      omega

/-! ## The sequence of a collapsed tree -/

namespace Node

/-- **Collapsing replaces runs of a sequence by placeholders.**  Let a tree have a sequence.  Then
it is cut into stretches, and the sequence of the collapsed tree is read off the same stretches:
tokens that come from no replaced node and from nothing below one stay, and of each replaced node
the run that its production writes gives way to one placeholder, while its boundary tokens stay.
The stretches cut out belong to different nodes, namely to those that hold placeholders in the
collapsed tree: below the root, of a kind that is mapped, deep enough, and not below another such
node.  There are as many as are counted as replaced.  With the default placeholders the sequence
gets shorter by that number at least. -/
theorem collapse_cuts_runs (n : Node) (placeholders : PlaceholderMap) (minDepth : Nat)
    (ts : List Token) (written : n.sequence = .ok ts) :
    ∃ stretches : List Stretch,
      n.tracedSequence = .ok (stretches.flatMap Stretch.before) ∧
      (stretches.flatMap Stretch.before).map Traced.token = ts ∧
      (n.collapse placeholders minDepth).tree.tracedSequence
        = .ok (stretches.flatMap Stretch.after) ∧
      (n.collapse placeholders minDepth).tree.sequence
        = .ok ((stretches.flatMap Stretch.after).map Traced.token) ∧
      (∀ s ∈ stretches, s.Fits n (n.collapsedName placeholders minDepth)) ∧
      (stretches.filterMap Stretch.path?).Nodup ∧
      (∀ p, p ∈ stretches.filterMap Stretch.path? ↔
        (∃ m name, n.at? p = some m ∧ n.collapsedName placeholders minDepth p = some name) ∧
          ∀ q, q <+: p → q ≠ p → n.collapsedName placeholders minDepth q = none) ∧
      (∀ p m name run, Stretch.cut p m name run ∈ stretches →
        (∃ position, m.ownTokens position = .ok (run.map Traced.token)) ∧
          (n.collapse placeholders minDepth).tree.at? p = some (m.asPlaceholder name)) ∧
      (n.collapse placeholders minDepth).replaced = (stretches.filterMap Stretch.path?).length ∧
      (placeholders = defaultPlaceholders → (stretches.flatMap Stretch.after).length
        + (n.collapse placeholders minDepth).replaced ≤ ts.length) := by
  obtain ⟨ss, hss, rfl⟩ := exists_tracedSequence written
  have hnil : n.collapsedName placeholders minDepth [] = none := if_pos rfl
  obtain ⟨us, hus, stretches, rfl, rfl, hfits, hpaths⟩ := cuts_tracedSequence hnil hss
  rw [collapse_eq, ← hpaths]
  refine ⟨stretches, hss, rfl, hus, ?_, hfits, ?_, fun p => ?_, fun p m name run hs => ?_, rfl,
    fun hdefault => ?_⟩
  · exact sequence_of_tracedSequence hus
  · rw [hpaths]
    exact nodup_maskedPaths n _
  · rw [hpaths, mem_maskedPaths]
    constructor
    · rintro ⟨⟨m, hm⟩, ⟨name, hname⟩, houter⟩
      exact ⟨⟨m, name, hm, hname⟩, houter⟩
    · rintro ⟨⟨m, name, hm, hname⟩, houter⟩
      exact ⟨⟨m, hm⟩, ⟨name, hname⟩, houter⟩
  · obtain ⟨hm, hname, position, hrun⟩ := hfits _ hs
    have hp : p ∈ stretches.filterMap Stretch.path? := List.mem_filterMap.mpr ⟨_, hs, rfl⟩
    rw [hpaths] at hp
    exact ⟨⟨position, ownTokens_of_ownTrace hrun⟩, at?_masked hp hm hname⟩
  · rw [List.length_map]
    refine Stretch.length_after_le fun p m name run hs => ?_
    obtain ⟨hm, hname, position, hrun⟩ := hfits _ hs
    obtain ⟨-, m', hm', -, hkind⟩ := (collapsedName_eq_some_iff placeholders minDepth).mp hname
    cases hm.symm.trans hm'
    rw [hdefault] at hkind
    exact two_le_length_ownTrace hkind hrun

/-- A program with a function, which was inserted, and an object literal with a function in it. -/
def nestedProgram : Node :=
  let name (s : String) : Node := untagged (.identifier s)
  let block (body : List Node) : Node := untagged (.blockStatement body)
  let function : Node := untagged (.functionExpression none [] (block []))
  untagged (.program
    [⟨.inserted, .inserted, .functionDeclaration (some (name "f")) [name "x"] (block [])⟩,
      untagged (.expressionStatement (untagged (.assignmentExpression "=" (name "o")
        (untagged (.objectExpression
          [untagged (.property (name "k") function false "init" false false)])))))])

/-- Two placeholders take the place of the inserted function and of the object literal; the
function in the literal disappears with it. -/
theorem nestedProgram_cuts_runs : (∃ ts, nestedProgram.sequence = .ok ts ∧ ts.length = 21) ∧
    (nestedProgram.collapse defaultPlaceholders 0).replaced = 2 ∧
    ∃ us, (nestedProgram.collapse defaultPlaceholders 0).tree.sequence = .ok us ∧
      us.length ≤ 19 := by
  refine ⟨⟨_, rfl, rfl⟩, rfl, ?_⟩
  obtain ⟨stretches, -, -, -, hsequence, -, -, -, -, -, hshorter⟩ :=
    collapse_cuts_runs nestedProgram defaultPlaceholders 0 _ rfl
  refine ⟨_, hsequence, ?_⟩
  rw [List.length_map]
  exact Nat.le_of_add_le_add_right (hshorter rfl)

end Node

end RepairCorpus
