import RepairCorpus.Proofs.Sequence.Pieces
import RepairCorpus.Proofs.Syntax.Nodes

/-!
# Which trees have a sequence

Writing a tree fails at the first construct that cannot be written where it stands.  Whether a
construct can be written is a matter of the construct alone: its kind has to have a production in
its position, a try statement needs a handler or a finalizer, and a variable declaration needs a
declarator.  `Form.offence?` says this without looking at productions, and
`Form.production_eq_error_iff` ties the two together, so that a construct missing from the table
of productions, or one too many in it, would break a proof.

What position a node has is a matter of the tree: the root is a statement, and every other node
has the position in which its parent's production writes it.  `Node.places` lists the nodes of a
tree with their positions, each before its parts and parts in source order.  A production writes
its parts in that order too, and this is why the first offence on the list is the one reported:
`Node.ownTokens_eq_error_iff`, by induction over the tree and within it over the pieces of a
production.
-/

namespace RepairCorpus

/-! ## What can be written where -/

/-- The kinds of constructs that have a production in a position. -/
def Position.kinds : Position → List Kind
  | .statement =>
    [.program, .blockStatement, .variableDeclaration, .functionDeclaration, .expressionStatement,
      .breakStatement, .continueStatement, .whileStatement, .doWhileStatement, .emptyStatement,
      .labeledStatement, .forStatement, .forInStatement, .ifStatement, .debuggerStatement,
      .returnStatement, .switchStatement, .throwStatement, .tryStatement, .identifier,
      .placeholder]
  | .expression =>
    [.variableDeclaration, .variableDeclarator, .functionDeclaration, .functionExpression,
      .emptyStatement, .emptyExpression, .switchCase, .catchClause, .identifier, .literal,
      .xmlLiteral, .arrayExpression, .assignmentExpression, .conditionalExpression,
      .memberExpression, .callExpression, .newExpression, .binaryExpression, .logicalExpression,
      .thisExpression, .objectExpression, .property, .unaryExpression, .updateExpression,
      .yieldExpression, .placeholder]

namespace Form

variable {α : Type}

/-- Why a construct cannot be written in a position, whatever its parts are. -/
def offence? (form : Form α) (position : Position) : Option Error :=
  if form.kind ∈ position.kinds then
    match form with
    | .tryStatement _ none none => some (.malformed .bareTry)
    | .variableDeclaration _ [] => some (.malformed .noDeclarators)
    | _ => none
  else some (.unsupportedKind form.kind position)

theorem offence?_eq_none_iff (form : Form α) (position : Position) :
    form.offence? position = none ↔ form.kind ∈ position.kinds ∧
      (∀ block handler finalizer, form = .tryStatement block handler finalizer →
        handler.isSome ∨ finalizer.isSome) ∧
      (∀ word declarations, form = .variableDeclaration word declarations → declarations ≠ []) := by
  unfold offence?
  split
  next hkind =>
    rw [and_iff_right hkind]
    split
    · simp
    · simp
    next hbare hnone =>
      refine iff_of_true rfl ⟨?_, ?_⟩
      · rintro block (_ | handler) (_ | finalizer) rfl
        · exact absurd rfl (hbare block)
        · exact Or.inr rfl
        · exact Or.inl rfl
        · exact Or.inl rfl
      · rintro word _ rfl rfl
        exact hnone word rfl
  next hkind => exact iff_of_false (Option.some_ne_none _) fun h => hkind h.1

/-- **A production is refused exactly for the offence of its construct.** -/
theorem production_eq_error_iff {form : Form α} {position : Position} {e : Error} :
    form.production position = .error e ↔ form.offence? position = some e := by
  cases position <;> cases form <;>
    simp only [production, statementPieces, expressionPieces, offence?, kind, Position.kinds,
      List.mem_cons, List.not_mem_nil, reduceCtorEq, or_false, false_or, if_true, if_false,
      Except.error.injEq, Option.some.injEq]
  case statement.variableDeclaration word xs =>
    cases xs <;> simp [declarationPieces, bind, Except.bind, pure, Except.pure]
  case statement.tryStatement block handler finalizer =>
    cases handler <;> cases finalizer <;> simp
  case expression.variableDeclaration word xs => cases xs <;> simp [declarationPieces]

end Form

/-! ## Where nodes stand -/

namespace Piece

variable {α : Type}

/-- The part of a piece with its position, if it has one. -/
def placed? : Piece α → Option (Position × α)
  | .token _ => none
  | .part position x => some (position, x)

/-- The parts among some pieces with their positions, in order. -/
def placed (ps : List (Piece α)) : List (Position × α) := ps.filterMap placed?

@[simp] theorem placed_token_cons (t : Token) (ps : List (Piece α)) :
    placed (.token t :: ps) = placed ps := rfl

@[simp] theorem placed_part_cons (position : Position) (x : α) (ps : List (Piece α)) :
    placed (.part position x :: ps) = (position, x) :: placed ps := rfl

/-- The positions aside, these are the parts. -/
theorem map_snd_placed (ps : List (Piece α)) : (placed ps).map Prod.snd = parts ps := by
  induction ps with
  | nil => rfl
  | cons p ps ih =>
    cases p with
    | token t => exact ih
    | part position x => exact congrArg (x :: ·) ih

theorem placed_map {β : Type} (f : α → β) (ps : List (Piece α)) :
    placed (ps.map (Piece.map f)) = (placed ps).map fun p => (p.1, f p.2) := by
  induction ps with
  | nil => rfl
  | cons p ps ih =>
    cases p with
    | token t => exact ih
    | part position x => exact congrArg ((position, f x) :: ·) ih

end Piece

namespace Form

variable {α : Type}

/-- The parts of a construct, each with the position in which the construct's production writes it
when the construct itself stands in a position.  A construct that is refused there writes none of
its parts; for the sake of a complete list they count as statements. -/
def placements (form : Form α) (position : Position) : List (Position × α) :=
  match form.production position with
  | .ok ps => Piece.placed ps
  | .error _ => form.children.map fun x => (.statement, x)

theorem placements_of_production {form : Form α} {position : Position} {ps : List (Piece α)}
    (h : form.production position = .ok ps) : form.placements position = Piece.placed ps := by
  rw [placements, h]

/-- Every part has one position, and the parts stay in source order. -/
theorem map_snd_placements (form : Form α) (position : Position) :
    (form.placements position).map Prod.snd = form.children := by
  unfold placements
  cases hps : form.production position with
  | error e => rw [List.map_map]; exact List.map_id _
  | ok ps => exact (Piece.map_snd_placed ps).trans (children_production hps)

theorem placements_map {β : Type} (f : α → β) (form : Form α) (position : Position) :
    (form.map f).placements position = (form.placements position).map fun p => (p.1, f p.2) := by
  unfold placements
  rw [production_map]
  cases form.production position with
  | error e => rw [children_map, List.map_map, List.map_map]; rfl
  | ok ps => exact Piece.placed_map f ps

end Form

namespace Node

/-- The nodes of a tree that stands in a position, each with its own position, before its parts,
and parts in source order. -/
def places : Node → Position → List (Position × Node) :=
  fold fun own underlying form position =>
    (position, ⟨own, underlying, form.map Prod.fst⟩)
      :: ((form.map Prod.snd).placements position).flatMap fun p => p.2 p.1

/-- A node stands where the tree stands, and its parts stand where its production writes them. -/
theorem places_eq_cons (n : Node) (position : Position) :
    n.places position
      = (position, n) :: (n.form.placements position).flatMap fun p => p.2.places p.1 := by
  obtain ⟨own, underlying, form⟩ := n
  have hform : (form.map fun n => (n, places n)).map Prod.fst = form := by
    rw [Form.map_map]
    exact Form.map_id form
  rw [places, fold_mk, ← places, hform, Form.map_map, Form.placements_map, List.flatMap_map]
  rfl

/-- The positions aside, the nodes are listed in preorder. -/
theorem map_snd_places (n : Node) (position : Position) :
    (n.places position).map Prod.snd = n.nodes := by
  induction n using Node.induction generalizing position with
  | step own underlying form ih =>
    have hparts : ∀ p ∈ form.placements position, (p.2.places p.1).map Prod.snd = p.2.nodes := by
      intro p hp
      refine ih p.2 ?_ p.1
      rw [← Form.map_snd_placements form position]
      exact List.mem_map_of_mem hp
    rw [places_eq_cons, nodes_mk, List.map_cons, List.map_flatMap, List.flatMap_def,
      List.map_congr_left hparts, ← List.flatMap_def, ← Form.map_snd_placements form position,
      List.flatMap_map]

end Node

/-! ## The first offence -/

namespace Piece

/-- Writing pieces fails with the first offence below one of the parts. -/
theorem run_eq_error_iff {ps : List (Piece Node)} {e : Error}
    (hparts : ∀ p ∈ placed ps, ∀ e, p.2.tokens p.1 = .error e ↔
      (p.2.places p.1).findSome? (fun q => q.2.form.offence? q.1) = some e) :
    run ps = .error e ↔ ((placed ps).flatMap fun p => p.2.places p.1).findSome?
      (fun q => q.2.form.offence? q.1) = some e := by
  induction ps with
  | nil => exact iff_of_false nofun nofun
  | cons p ps ih =>
    cases p with
    | token t => rw [run_token_cons, Except.map_eq_error_iff, placed_token_cons, ih hparts]
    | part position n =>
      have hn := hparts (position, n) List.mem_cons_self
      have hps := ih fun p hp => hparts p (List.mem_cons_of_mem _ hp)
      rw [run_part_cons, placed_part_cons, List.flatMap_cons, List.findSome?_append]
      cases htokens : n.tokens position with
      | error e' =>
        rw [(hn e').mp htokens]
        simp only [Except.bind, Except.error.injEq, Option.some_or, Option.some.injEq]
      | ok us =>
        have hnone : (n.places position).findSome? (fun q => q.2.form.offence? q.1) = none := by
          refine Option.eq_none_iff_forall_ne_some.mpr fun e' he' => ?_
          have herror := (hn e').mpr he'
          rw [htokens] at herror
          cases herror
        rw [hnone, Option.none_or, ← hps]
        exact Except.map_eq_error_iff

end Piece

namespace Node

/-- **Writing a node fails with the first offence on the list of its places.** -/
theorem ownTokens_eq_error_iff {n : Node} {position : Position} {e : Error} :
    n.ownTokens position = .error e ↔
      (n.places position).findSome? (fun q => q.2.form.offence? q.1) = some e := by
  induction n using Node.induction generalizing position e with
  | step own underlying form ih =>
    rw [ownTokens_eq, places_eq_cons, List.findSome?_cons]
    show (form.production position).bind Piece.run = .error e ↔ _
    cases hps : form.production position with
    | error e' =>
      rw [Form.production_eq_error_iff.mp hps]
      simp only [Except.bind, Except.error.injEq, Option.some.injEq]
    | ok ps =>
      have hnone : form.offence? position = none := by
        refine Option.eq_none_iff_forall_ne_some.mpr fun e' he' => ?_
        rw [Form.production_eq_error_iff.mpr he'] at hps
        cases hps
      rw [hnone, Form.placements_of_production hps]
      refine Piece.run_eq_error_iff fun p hp e => ?_
      have hchild : p.2 ∈ form.children := by
        rw [← Form.children_production hps, ← Piece.map_snd_placed]
        exact List.mem_map_of_mem hp
      rw [tokens, ← ih p.2 hchild]
      exact Except.map_eq_error_iff

/-- **A tree has a sequence exactly when none of its nodes offends, and otherwise the first offence
is reported.**  The root stands as a statement and every other node where its parent's production
writes it.  There is a sequence exactly when every node is of a kind that is written in its
position, every try statement has a handler or a finalizer, and every variable declaration has a
declarator.  The error, if there is one, is the offence of the first node that offends, in the
order in which every node comes before its parts and parts come in source order. -/
theorem sequence_accepts_grammar (n : Node) :
    ((∃ ts, n.sequence = .ok ts) ↔ ∀ place ∈ n.places .statement,
      place.2.kind ∈ place.1.kinds ∧
      (∀ block handler finalizer, place.2.form = .tryStatement block handler finalizer →
        handler.isSome ∨ finalizer.isSome) ∧
      (∀ word declarations, place.2.form = .variableDeclaration word declarations →
        declarations ≠ [])) ∧
    (∀ e, n.sequence = .error e ↔ ∃ before position m after,
      n.places .statement = before ++ (position, m) :: after ∧
      (∀ place ∈ before, place.2.form.offence? place.1 = none) ∧
      m.form.offence? position = some e) ∧
    (n.places .statement).map Prod.snd = n.nodes := by
  have herror (e : Error) : n.sequence = .error e ↔
      (n.places .statement).findSome? (fun q => q.2.form.offence? q.1) = some e := by
    rw [sequence, ← ownTokens_eq_error_iff]
    exact Except.map_eq_error_iff
  refine ⟨?_, fun e => ?_, map_snd_places n .statement⟩
  · have hok : (∃ ts, n.sequence = .ok ts) ↔
        (n.places .statement).findSome? (fun q => q.2.form.offence? q.1) = none := by
      rw [Option.eq_none_iff_forall_ne_some]
      cases hs : n.sequence with
      | ok ts => exact iff_of_true ⟨ts, rfl⟩ fun e he => by cases hs.symm.trans ((herror e).mpr he)
      | error e => exact iff_of_false nofun fun h => h e ((herror e).mp hs)
    rw [hok, List.findSome?_eq_none_iff]
    exact forall₂_congr fun place _ => Form.offence?_eq_none_iff place.2.form place.1
  · rw [herror, List.findSome?_eq_some_iff]
    constructor
    · rintro ⟨before, ⟨position, m⟩, after, hplaces, hm, hbefore⟩
      exact ⟨before, position, m, after, hplaces, hbefore, hm⟩
    · rintro ⟨before, position, m, after, hplaces, hbefore, hm⟩
      exact ⟨before, (position, m), after, hplaces, hm, hbefore⟩

/-- A try statement that lacks both is reported before the construct without tokens inside it. -/
example : (untagged (.tryStatement (untagged (.blockStatement [untagged .other])) none none)).sequence
    = .error (.malformed .bareTry) := rfl

end Node

end RepairCorpus
