import RepairCorpus.Proofs.Results
import RepairCorpus.Sequence.Generate

/-!
# Productions over trees

`Node.ownTokens` writes a node from what is known about each of its parts.  Because a production
does not look at its parts, it can as well be read off the tree first: `Form.production_map` says
that changing the parts of a construct and listing its pieces can be done in either order.  So a
node is written by listing its pieces, which are tokens and subtrees, and writing these one after
the other: `Node.ownTokens_eq`, with `Piece.run` for the second half.  An argument about sequences
is from here on an induction over a list of pieces inside an induction over the tree.

What a production adds to its parts is a word of the language or a text of the construct itself:
`Form.mem_fixed_production`.
-/

namespace RepairCorpus

/-! ## Changing the parts of pieces -/

namespace Piece

variable {α β : Type} (f : α → β)

@[simp] theorem map_statement (x : α) : (statement x).map f = statement (f x) := rfl

@[simp] theorem map_expression (x : α) : (expression x).map f = expression (f x) := rfl

@[simp] theorem map_map_tokens (ts : List Token) :
    (tokens ts).map (Piece.map f) = (tokens ts : List (Piece β)) := by
  rw [tokens, tokens, List.map_map]
  rfl

@[simp] theorem map_map_statements (xs : List α) :
    (statements xs).map (Piece.map f) = statements (xs.map f) := by
  rw [statements, statements, List.map_map, List.map_map]
  rfl

@[simp] theorem map_map_optional (before : List Token) (x : Option α) :
    (optional before x).map (Piece.map f) = optional before (x.map f) := by
  cases x with
  | none => rfl
  | some x =>
    show (tokens before ++ [expression x]).map (Piece.map f) = _
    rw [List.map_append, map_map_tokens]
    rfl

theorem map_map_commaJoined (pss : List (List (Piece α))) :
    (commaJoined pss).map (Piece.map f) = commaJoined (pss.map (List.map (Piece.map f))) := by
  induction pss with
  | nil => rfl
  | cons ps pss ih =>
    cases pss with
    | nil => rfl
    | cons qs pss =>
      rw [commaJoined, List.map_append, List.map_cons, ih]
      · rfl
      · exact fun h => List.cons_ne_nil _ _ h

@[simp] theorem map_map_commaSeparated (xs : List α) :
    (commaSeparated xs).map (Piece.map f) = commaSeparated (xs.map f) := by
  rw [commaSeparated, commaSeparated, map_map_commaJoined, List.map_map, List.map_map]
  rfl

end Piece

namespace Form

variable {α β : Type}

open Piece in
/-- **A production does not look at its parts.** -/
theorem production_map (f : α → β) (position : Position) (form : Form α) :
    (form.map f).production position
      = (form.production position).map (List.map (Piece.map f)) := by
  have joined (xs : List (Option α)) :
      (commaJoined (xs.map (optional []))).map (Piece.map f)
        = commaJoined ((xs.map (Option.map f)).map (optional [])) := by
    rw [map_map_commaJoined, List.map_map, List.map_map]
    congr 1
    exact List.map_congr_left fun x _ => map_map_optional f [] x
  have declared (kind : String) (xs : List α) :
      declarationPieces kind (xs.map f)
        = (declarationPieces kind xs).map (List.map (Piece.map f)) := by
    cases xs with
    | nil => rfl
    | cons x xs =>
      show Except.ok (tokens [kind] ++ commaSeparated ((x :: xs).map f))
        = Except.ok ((tokens [kind] ++ commaSeparated (x :: xs)).map (Piece.map f))
      rw [List.map_append, map_map_commaSeparated, map_map_tokens]
  cases position <;> cases form <;>
    simp only [production, map, mapIdx, mapIdx_const, mapPresentIdx_const, statementPieces,
      expressionPieces, functionPieces, kind]
  case statement.variableDeclaration word xs =>
    rw [declared]
    cases declarationPieces word xs with
    | error e => rfl
    | ok ps => exact congrArg Except.ok (by simp only [List.map_append, map_map_tokens])
  case statement.tryStatement block handler finalizer =>
    cases handler <;> cases finalizer <;> simp [Except.map, Piece.optional]
  case statement.ifStatement test consequent alternate =>
    cases alternate <;> simp [Except.map]
  case expression.variableDeclaration word xs => exact declared word xs
  case expression.arrayExpression xs => simp [Except.map, joined]
  case expression.switchCase test consequent => cases test <;> simp [Except.map]
  case expression.catchClause param body => cases param <;> simp [Except.map]
  case expression.memberExpression object member computed =>
    cases computed <;> simp [Except.map]
  case expression.property key value computed _ _ _ => cases computed <;> simp [Except.map]
  case expression.unaryExpression operator argument front =>
    cases front <;> simp [Except.map]
  case expression.updateExpression operator argument front =>
    cases front <;> simp [Except.map]
  all_goals simp [Except.map]

end Form

/-! ## The tokens of a production -/

/-- The words and signs of the language. -/
def language : List Token :=
  ["\x7b", "\x7d", "(", ")", "[", "]", ";", ",", ":", ".", "?", "=", "function", "break",
    "continue", "while", "do", "for", "in", "if", "else", "debugger", "return", "switch", "case",
    "default", "throw", "try", "catch", "finally", "new", "this", "yield", "@xmllit"]

namespace Piece

variable {α : Type}

/-- The token of a piece, if it is one. -/
def token? : Piece α → Option Token
  | .token t => some t
  | .part _ _ => none

/-- The tokens among some pieces, in order. -/
def fixed (ps : List (Piece α)) : List Token := ps.filterMap token?

@[simp] theorem fixed_nil : fixed ([] : List (Piece α)) = [] := rfl

@[simp] theorem fixed_append (ps qs : List (Piece α)) :
    fixed (ps ++ qs) = fixed ps ++ fixed qs := by
  rw [fixed, List.filterMap_append, ← fixed, ← fixed]

@[simp] theorem fixed_token_cons (t : Token) (ps : List (Piece α)) :
    fixed (.token t :: ps) = t :: fixed ps := rfl

@[simp] theorem fixed_part_cons (position : Position) (x : α) (ps : List (Piece α)) :
    fixed (.part position x :: ps) = fixed ps := rfl

@[simp] theorem fixed_statement_cons (x : α) (ps : List (Piece α)) :
    fixed (statement x :: ps) = fixed ps := rfl

@[simp] theorem fixed_expression_cons (x : α) (ps : List (Piece α)) :
    fixed (expression x :: ps) = fixed ps := rfl

@[simp] theorem fixed_tokens (ts : List Token) : fixed (tokens ts : List (Piece α)) = ts := by
  induction ts with
  | nil => rfl
  | cons t ts ih => exact congrArg (t :: ·) ih

@[simp] theorem fixed_map_part (position : Position) (xs : List α) :
    fixed (xs.map (Piece.part position)) = [] := by
  induction xs with
  | nil => rfl
  | cons x xs ih => rw [List.map_cons, fixed_part_cons, ih]

@[simp] theorem fixed_statements (xs : List α) : fixed (statements xs) = [] :=
  fixed_map_part .statement xs

@[simp] theorem fixed_map_expression (xs : List α) : fixed (xs.map expression) = [] :=
  fixed_map_part .expression xs

@[simp] theorem fixed_optional_nil (x : Option α) : fixed (optional [] x) = [] := by
  cases x <;> rfl

/-- Between lists of parts stand commas and nothing else. -/
theorem fixed_commaJoined {pss : List (List (Piece α))} (h : ∀ ps ∈ pss, fixed ps = []) :
    fixed (commaJoined pss) = List.replicate (pss.length - 1) "," := by
  induction pss with
  | nil => rfl
  | cons ps pss ih =>
    have hps : fixed ps = [] := h ps List.mem_cons_self
    cases pss with
    | nil => exact hps
    | cons qs pss =>
      have hrest := ih fun rs hrs => h rs (List.mem_cons_of_mem _ hrs)
      rw [commaJoined, fixed_append, hps, List.nil_append, fixed_token_cons, hrest]
      · rfl
      · exact fun h => List.cons_ne_nil _ _ h

@[simp] theorem fixed_commaSeparated (xs : List α) :
    fixed (commaSeparated xs) = List.replicate (xs.length - 1) "," := by
  rw [commaSeparated, fixed_commaJoined, List.length_map]
  intro ps hps
  obtain ⟨x, -, rfl⟩ := List.mem_map.mp hps
  rfl

end Piece

namespace Form

variable {α : Type}

/-- The texts of a construct that it writes itself: a name, a literal, an operator, or the word
that opens a declaration. -/
def texts : Form α → List Token
  | .variableDeclaration kind _ => [kind]
  | .identifier name => [name]
  | .literal _ raw _ => [literalToken raw]
  | .assignmentExpression operator _ _ => [operator]
  | .binaryExpression operator _ _ => [operator]
  | .logicalExpression operator _ _ => [operator]
  | .unaryExpression operator _ _ => [operator]
  | .updateExpression operator _ _ => [operator]
  | .placeholder name => [name]
  | _ => []

open Piece in
/-- **A production adds only words of the language and texts of the construct.** -/
theorem mem_fixed_production {position : Position} {form : Form α} {ps : List (Piece α)}
    (h : form.production position = .ok ps) : ∀ t ∈ fixed ps, t ∈ language ∨ t ∈ form.texts := by
  have joined (xs : List (Option α)) :
      fixed (commaJoined (xs.map (optional []))) = List.replicate (xs.length - 1) "," := by
    rw [fixed_commaJoined, List.length_map]
    intro ps hps
    obtain ⟨x, -, rfl⟩ := List.mem_map.mp hps
    exact fixed_optional_nil x
  have declared (word : String) (xs : List α) (qs : List (Piece α))
      (hq : declarationPieces word xs = .ok qs) :
      ∀ t ∈ fixed qs, t ∈ language ∨ t ∈ [word] := by
    unfold declarationPieces at hq
    split at hq
    · cases hq
    · cases hq
      simp +contextual [language]
  cases position <;> cases form <;>
    simp only [production, statementPieces, expressionPieces, reduceCtorEq] at h
  case statement.variableDeclaration word xs =>
    cases hd : declarationPieces word xs with
    | error e => rw [hd] at h; cases h
    | ok qs =>
      rw [hd] at h
      cases h
      intro t ht
      rcases List.mem_append.mp (fixed_append qs _ ▸ ht) with ht | ht
      · exact declared word xs qs hd t ht
      · exact Or.inl (by simp_all [language])
  case statement.tryStatement block handler finalizer =>
    split at h
    · cases h
    · cases h
      cases finalizer <;> simp [language]
  case expression.variableDeclaration word xs => exact declared word xs ps h
  case expression.variableDeclarator id init =>
    cases h
    cases init <;> simp [language, Piece.optional]
  all_goals
    cases h
    simp only [functionPieces, texts]
    repeat' split
    all_goals simp +contextual [language, joined, or_imp]

end Form

/-! ## Writing the pieces of a node -/

namespace Piece

/-- The tokens of some pieces whose parts are nodes. -/
def run (ps : List (Piece Node)) : Except Error (List Token) :=
  write (ps.map (Piece.map Node.tokens))

@[simp] theorem run_nil : run [] = .ok [] := rfl

theorem run_token_cons (t : Token) (ps : List (Piece Node)) :
    run (.token t :: ps) = (run ps).map (t :: ·) := rfl

theorem run_part_cons (position : Position) (n : Node) (ps : List (Piece Node)) :
    run (.part position n :: ps)
      = (n.tokens position).bind fun ts => (run ps).map (ts ++ ·) := rfl

theorem run_token_cons_eq_ok_iff {t : Token} {ps : List (Piece Node)} {ts : List Token} :
    run (.token t :: ps) = .ok ts ↔ ∃ us, run ps = .ok us ∧ t :: us = ts := by
  rw [run_token_cons, Except.map_eq_ok_iff]

theorem run_part_cons_eq_ok_iff {position : Position} {n : Node} {ps : List (Piece Node)}
    {ts : List Token} :
    run (.part position n :: ps) = .ok ts ↔
      ∃ us vs, n.tokens position = .ok us ∧ run ps = .ok vs ∧ us ++ vs = ts := by
  rw [run_part_cons, Except.bind_eq_ok_iff]
  constructor
  · rintro ⟨us, hus, h⟩
    obtain ⟨vs, hvs, rfl⟩ := Except.map_eq_ok_iff.mp h
    exact ⟨us, vs, hus, hvs, rfl⟩
  · rintro ⟨us, vs, hus, hvs, rfl⟩
    exact ⟨us, hus, Except.map_eq_ok_iff.mpr ⟨vs, hvs, rfl⟩⟩

end Piece

namespace Node

/-- **A node is written by listing its pieces and writing these.** -/
theorem ownTokens_eq (n : Node) (position : Position) :
    n.ownTokens position = (n.form.production position).bind Piece.run := by
  obtain ⟨own, underlying, form⟩ := n
  rw [ownTokens_mk, Form.production_map]
  cases form.production position <;> rfl

theorem ownTokens_eq_ok_iff {n : Node} {position : Position} {ts : List Token} :
    n.ownTokens position = .ok ts ↔
      ∃ ps, n.form.production position = .ok ps ∧ Piece.run ps = .ok ts := by
  rw [ownTokens_eq, Except.bind_eq_ok_iff]

theorem tokens_eq_ok_iff {n : Node} {position : Position} {ts : List Token} :
    n.tokens position = .ok ts ↔ ∃ us, n.ownTokens position = .ok us ∧ n.own.wrap us = ts :=
  Except.map_eq_ok_iff

theorem sequence_eq_ok_iff {n : Node} {ts : List Token} :
    n.sequence = .ok ts ↔ ∃ us, n.ownTokens .statement = .ok us ∧ n.rootTag.wrap us = ts :=
  Except.map_eq_ok_iff

end Node

end RepairCorpus
