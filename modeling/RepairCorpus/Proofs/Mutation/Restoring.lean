import RepairCorpus.Mutation.Patch
import RepairCorpus.Proofs.Results

/-!
# Patches undo detachments

A detachment takes one try statement apart and a patch puts it together again.  This file says
what the two do to each other, first at one owner, then in a whole tree, then along a run of any
length in which detachments are stacked on one another.

The definition of `Form.detach` mixes two questions: whether there is a try statement that can be
taken apart, and what then stands in its place.  `Form.detach_eq` separates them.  The first is
answered by three tests in a fixed order --- the owner gives up try statements, it has a part with
that number, the part is a try statement around a block --- and the second by `Form.exposed`,
which cannot fail.

* `Form.restore_exposed`: at one owner, restoring undoes exposing.
* `Node.restore_detach`: the same in a whole tree, at any path.
* `Bench.run_restores`: detachments and restorations in any order, each restoration undoing the
  latest detachment in force.
-/

namespace RepairCorpus

/-! ## Try statements that come apart -/

namespace OpenedTry

/-- Nothing but a try statement comes apart. -/
theorem ofNode_of_kind_ne {n : Node} (h : n.kind ≠ .tryStatement) :
    ofNode n = .error (.malformed .notATry) := by
  obtain ⟨own, underlying, form⟩ := n
  cases form
  case tryStatement => exact absurd rfl h
  all_goals rfl

/-- A try statement comes apart exactly when its block is a block statement. -/
theorem ofNode_tryStatement (own underlying : Tag) (block : Node)
    (handler finalizer : Option Node) :
    (∃ o, ofNode ⟨own, underlying, .tryStatement block handler finalizer⟩ = .ok o) ∧
        block.kind = .blockStatement ∨
      ofNode ⟨own, underlying, .tryStatement block handler finalizer⟩
          = .error (.malformed .tryBlockNotABlock) ∧ block.kind ≠ .blockStatement := by
  obtain ⟨blockOwn, blockUnderlying, form⟩ := block
  cases form
  case blockStatement body => exact Or.inl ⟨⟨_, rfl⟩, rfl⟩
  all_goals exact Or.inr ⟨rfl, Kind.noConfusion⟩

/-- What takes the place of a try statement where there is room for one statement, and how that is
to be undone. -/
def standIn (o : OpenedTry) : Node × Exposure :=
  match o.body with
  | [only] => (only.expose, .statement o.block only.isRetagged)
  | _ => ((o.block.around o.body).expose, .block (o.block.around o.body).isRetagged)

end OpenedTry

/-! ## Owners that give up try statements -/

/-- Whether a construct gives up a try statement among its parts: it holds a list of statements,
or it has room for single ones. -/
def Kind.givesUpTry : Kind → Bool
  | .program | .blockStatement | .ifStatement | .whileStatement | .forStatement
  | .forInStatement => true
  | _ => false

namespace Form

section Statements

variable {α : Type}

/-- Where there is a list of statements, it is all there is. -/
theorem children_eq_of_statements? {form : Form α} {body : List α}
    (h : form.statements? = some body) : form.children = body := by
  cases form <;> simp only [statements?, reduceCtorEq, Option.some.injEq] at h
  case program => exact h
  case blockStatement => exact h

theorem statements?_withStatements {form : Form α} {body : List α}
    (h : form.statements? = some body) (body' : List α) :
    (form.withStatements body').statements? = some body' := by
  cases form <;> simp only [statements?, reduceCtorEq] at h <;> rfl

theorem withStatements_withStatements (form : Form α) (body body' : List α) :
    (form.withStatements body).withStatements body' = form.withStatements body' := by
  cases form <;> rfl

theorem withStatements_eq_self {form : Form α} {body : List α}
    (h : form.statements? = some body) : form.withStatements body = form := by
  cases form <;> simp only [statements?, reduceCtorEq, Option.some.injEq] at h <;> rw [← h] <;> rfl

/-- The two ways of giving up a try statement cover the constructs that do. -/
theorem givesUpTry_kind (form : Form α) :
    form.kind.givesUpTry = (form.statements?.isSome || form.hasSlots) := by
  cases form <;> rfl

end Statements

/-! ## What stands in the place of a try statement -/

/-- An owner with what a try statement's block held in the try statement's place, and how that is
to be undone. -/
def exposed (form : Form Node) (index : Nat) (o : OpenedTry) : Form Node × Exposure :=
  match form.statements? with
  | some body =>
    (form.withStatements (body.take index ++ o.body.map Node.expose ++ body.drop (index + 1)),
      .spliced o.block (o.body.map Node.isRetagged))
  | none =>
    match o.body with
    | [only] => (form.setChild index only.expose, .statement o.block only.isRetagged)
    | _ =>
      (form.setChild index (o.block.around o.body).expose,
        .block (o.block.around o.body).isRetagged)

/-- Where there is no list of statements, one node takes the place of a try statement. -/
theorem exposed_of_no_list {form : Form Node} (h : form.statements? = none) (index : Nat)
    (o : OpenedTry) :
    form.exposed index o = (form.setChild index o.standIn.1, o.standIn.2) := by
  rw [exposed, h]
  obtain ⟨frame, block, _ | ⟨only, _ | ⟨next, rest⟩⟩⟩ := o <;> rfl

/-- **What a detachment does.**  It fails for the owner, then for the place, then for what stands
there; otherwise the try statement's content is exposed. -/
theorem detach_eq (form : Form Node) (index : Nat) :
    form.detach index =
      if form.kind.givesUpTry then
        match form.children[index]? with
        | none => .error lostOwner
        | some n => (OpenedTry.ofNode n).map fun o =>
          ((form.exposed index o).1, o.frame, (form.exposed index o).2)
      else .error (.unsupportedOwner form.kind) := by
  rw [givesUpTry_kind, detach]
  cases hs : form.statements? with
  | some body =>
    rw [children_eq_of_statements? hs]
    simp only [Option.isSome_some, Bool.true_or, if_true, exposed, hs]
    cases body[index]? with
    | none => rfl
    | some n => cases OpenedTry.ofNode n <;> rfl
  | none =>
    simp only [Option.isSome_none, Bool.false_or, exposed, hs]
    cases form.hasSlots with
    | false => rfl
    | true =>
      simp only [if_true]
      cases form.children[index]? with
      | none => rfl
      | some n =>
        simp only
        cases OpenedTry.ofNode n with
        | error e => rfl
        | ok o =>
          obtain ⟨frame, block, _ | ⟨only, _ | ⟨next, rest⟩⟩⟩ := o
          · rfl
          · rfl
          · rfl

/-- A detachment succeeds by exposing the content of a try statement that is there. -/
theorem detach_eq_ok_iff {form form' : Form Node} {index : Nat} {frame : TryFrame}
    {exposure : Exposure} :
    form.detach index = .ok (form', frame, exposure) ↔
      form.kind.givesUpTry = true ∧ ∃ n o, form.children[index]? = some n ∧
        OpenedTry.ofNode n = .ok o ∧ form.exposed index o = (form', exposure) ∧
          o.frame = frame := by
  rw [detach_eq]
  constructor
  · intro h
    by_cases hk : form.kind.givesUpTry = true
    · refine ⟨hk, ?_⟩
      rw [if_pos hk] at h
      cases hn : form.children[index]? with
      | none =>
        rw [hn] at h
        cases h
      | some n =>
        rw [hn] at h
        obtain ⟨o, ho, heq⟩ := Except.map_eq_ok_iff.mp h
        cases heq
        exact ⟨n, o, rfl, ho, rfl, rfl⟩
    · rw [if_neg hk] at h
      cases h
  · rintro ⟨hk, n, o, hn, ho, hx, rfl⟩
    rw [if_pos hk, hn]
    refine Except.map_eq_ok_iff.mpr ⟨o, ho, ?_⟩
    rw [hx]

/-! ## Undoing it -/

/-- Taking back the exposure of listed statements. -/
theorem zipWith_conceal_expose (ns : List Node) :
    List.zipWith Node.conceal (ns.map Node.isRetagged) (ns.map Node.expose) = ns := by
  induction ns with
  | nil => rfl
  | cons n ns ih =>
    rw [List.map_cons, List.map_cons, List.zipWith_cons_cons, Node.conceal_expose, ih]

/-- A list with one entry replaced by several, taken apart at that place. -/
theorem splice_parts {α : Type} {xs : List α} {i : Nat} (hi : i < xs.length) (ys : List α) :
    (xs.take i ++ ys ++ xs.drop (i + 1)).take i = xs.take i ∧
      ((xs.take i ++ ys ++ xs.drop (i + 1)).drop i).take ys.length = ys ∧
        (xs.take i ++ ys ++ xs.drop (i + 1)).drop (i + ys.length) = xs.drop (i + 1) := by
  have hlen : (xs.take i).length = i := List.length_take_of_le (Nat.le_of_lt hi)
  refine ⟨?_, ?_, ?_⟩
  · rw [List.append_assoc]
    exact List.take_left' hlen
  · rw [List.append_assoc, List.drop_left' hlen]
    exact List.take_left' rfl
  · exact List.drop_left' (by rw [List.length_append, hlen])

/-- **At one owner, restoring undoes exposing.** -/
theorem restore_exposed {form : Form Node} {index : Nat} {n : Node} {o : OpenedTry}
    (hn : form.children[index]? = some n) (ho : OpenedTry.ofNode n = .ok o) :
    (form.exposed index o).1.restore index o.frame (form.exposed index o).2 = .ok form := by
  have hclose : o.frame.around (o.block.around o.body) = n := OpenedTry.close_of_ofNode ho
  obtain ⟨hi, -⟩ := List.getElem?_eq_some_iff.mp hn
  have hset (x : Node) : (form.setChild index x).children[index]? = some x := by
    rw [children_setChild, List.getElem?_set_self hi]
  unfold exposed
  cases hs : form.statements? with
  | some body =>
    rw [children_eq_of_statements? hs] at hn hi
    obtain ⟨hfront, hexposed, hback⟩ := splice_parts hi (o.body.map Node.expose)
    have hlen : (o.body.map Node.isRetagged).length = (o.body.map Node.expose).length := by
      rw [List.length_map, List.length_map]
    have hfits : ¬ (body.take index ++ o.body.map Node.expose ++ body.drop (index + 1)).length
        < index + (o.body.map Node.expose).length := by
      simp only [List.length_append, List.length_take, List.length_drop]
      omega
    have hbody : body.take index ++ n :: body.drop (index + 1) = body := by
      obtain ⟨_, hget⟩ := List.getElem?_eq_some_iff.mp hn
      rw [← hget, List.getElem_cons_drop, List.take_append_drop]
    simp only [restore, statements?_withStatements hs, hlen, if_neg hfits, hfront, hexposed, hback,
      zipWith_conceal_expose, hclose, hbody, withStatements_withStatements,
      withStatements_eq_self hs]
  | none =>
    have hwhole : (form.setChild index (o.block.around o.body).expose).restore index o.frame
        (.block (o.block.around o.body).isRetagged) = .ok form := by
      rw [restore, hset]
      simp only [Node.conceal_expose, hclose, setChild_setChild, setChild_eq_self hn]
    obtain ⟨frame, block, body⟩ := o
    match body with
    | [] => exact hwhole
    | [only] =>
      show (form.setChild index only.expose).restore index frame
        (.statement block only.isRetagged) = .ok form
      rw [restore, hset]
      simp only [Node.conceal_expose, setChild_setChild]
      rw [show frame.around (block.around [only]) = n from hclose, setChild_eq_self hn]
    | _ :: _ :: _ => exact hwhole

end Form

namespace Node

/-- A detachment in a tree is one at the owner. -/
theorem detach_of_at? {root owner : Node} {c : Candidate} (h : root.at? c.owner = some owner) :
    root.detach c = (owner.form.detach c.index).map fun r =>
      (root.setAt c.owner (owner.withForm r.1), ⟨c, r.2.1, r.2.2⟩) := by
  unfold detach
  rw [h]
  simp only
  cases owner.form.detach c.index <;> rfl

section Cases

variable {root owner : Node} {c : Candidate} (howner : root.at? c.owner = some owner)

include howner

theorem detach_of_not_givesUpTry (hgives : owner.kind.givesUpTry = false) :
    root.detach c = .error (.unsupportedOwner owner.kind) := by
  have hno : owner.form.kind.givesUpTry = false := hgives
  rw [detach_of_at? howner, Form.detach_eq, hno]
  rfl

variable (hgives : owner.kind.givesUpTry = true)

include hgives

theorem detach_of_no_part (hn : owner.children[c.index]? = none) :
    root.detach c = .error lostOwner := by
  have hyes : owner.form.kind.givesUpTry = true := hgives
  have hn' : owner.form.children[c.index]? = none := hn
  rw [detach_of_at? howner, Form.detach_eq, hyes, hn']
  rfl

/-- Where there is a part, everything depends on taking it to pieces. -/
theorem detach_of_part {n : Node} (hn : owner.children[c.index]? = some n) :
    root.detach c = (OpenedTry.ofNode n).map fun o =>
      (root.setAt c.owner (owner.withForm (owner.form.exposed c.index o).1),
        ⟨c, o.frame, (owner.form.exposed c.index o).2⟩) := by
  have hyes : owner.form.kind.givesUpTry = true := hgives
  have hn' : owner.form.children[c.index]? = some n := hn
  rw [detach_of_at? howner, Form.detach_eq, hyes, hn', if_pos rfl]
  dsimp only
  cases OpenedTry.ofNode n <;> rfl

end Cases

theorem detach_eq_ok_iff {root tree : Node} {c : Candidate} {p : Patch} :
    root.detach c = .ok (tree, p) ↔
      ∃ owner form frame exposure, root.at? c.owner = some owner ∧
        owner.form.detach c.index = .ok (form, frame, exposure) ∧
          root.setAt c.owner (owner.withForm form) = tree ∧ ⟨c, frame, exposure⟩ = p := by
  constructor
  · intro h
    cases howner : root.at? c.owner with
    | none => simp only [detach, howner, reduceCtorEq] at h
    | some owner =>
      rw [detach_of_at? howner] at h
      obtain ⟨⟨form, frame, exposure⟩, hd, heq⟩ := Except.map_eq_ok_iff.mp h
      cases heq
      exact ⟨owner, form, frame, exposure, rfl, hd, rfl, rfl⟩
  · rintro ⟨owner, form, frame, exposure, howner, hd, rfl, rfl⟩
    rw [detach_of_at? howner, hd]
    rfl

/-- **Restoring undoes detaching**, at any place of any tree. -/
theorem restore_detach {root tree : Node} {c : Candidate} {p : Patch}
    (h : root.detach c = .ok (tree, p)) : tree.restore p = .ok root := by
  obtain ⟨owner, form, frame, exposure, howner, hd, rfl, rfl⟩ := detach_eq_ok_iff.mp h
  obtain ⟨-, n, o, hn, ho, hx, rfl⟩ := Form.detach_eq_ok_iff.mp hd
  have hform : form.restore c.index o.frame exposure = .ok owner.form := by
    have hback := Form.restore_exposed hn ho
    rwa [hx] at hback
  have hfound : (root.setAt c.owner (owner.withForm form)).at? c.owner
      = some (owner.withForm form) := at?_setAt_self howner _
  unfold restore
  rw [hfound]
  simp only [form_withForm, hform]
  show Except.ok ((root.setAt c.owner (owner.withForm form)).setAt c.owner
    ((owner.withForm form).withForm owner.form)) = .ok root
  rw [withForm_withForm, withForm_form, setAt_setAt howner, setAt_at? howner]

end Node

/-! ## Stacked detachments -/

/-- One move of someone at work on a tree: to detach whatever stands at a place, or to undo the
latest detachment in force. -/
inductive Move where
  | detach (c : Candidate)
  | restore

/-- A tree at work. -/
structure Bench where
  tree : Node
  /-- The detachments in force, the latest first: each one's patch, and the tree just before. -/
  inForce : List (Patch × Node)

namespace Bench

/-- What a move makes of a bench.  A detachment that fails leaves everything as it was, and so
does a restoration when no detachment is in force. -/
def move (b : Bench) : Move → Except Error Bench
  | .detach c =>
    match b.tree.detach c with
    | .error _ => .ok b
    | .ok (tree, patch) => .ok ⟨tree, (patch, b.tree) :: b.inForce⟩
  | .restore =>
    match b.inForce with
    | [] => .ok b
    | (patch, _) :: rest => do return ⟨← b.tree.restore patch, rest⟩

/-- Moves one after the other. -/
def run (b : Bench) (moves : List Move) : Except Error Bench := moves.foldlM move b

/-- What every move preserves, for a bench that was set up with one tree: each patch in force
leads from the tree above it to the tree just before its detachment, down to the first tree. -/
def Undoable (start : Node) : Node → List (Patch × Node) → Prop
  | tree, [] => tree = start
  | tree, (patch, before) :: rest => tree.restore patch = .ok before ∧ Undoable start before rest

/-- A move does not fail, and what it leaves can still be undone. -/
theorem move_undoable {start : Node} {b : Bench} (h : Undoable start b.tree b.inForce) (m : Move) :
    ∃ b', b.move m = .ok b' ∧ Undoable start b'.tree b'.inForce := by
  cases m with
  | detach c =>
    cases hd : b.tree.detach c with
    | error e => exact ⟨b, by simp only [move, hd], h⟩
    | ok r =>
      obtain ⟨tree, patch⟩ := r
      exact ⟨⟨tree, (patch, b.tree) :: b.inForce⟩, by simp only [move, hd],
        Node.restore_detach hd, h⟩
  | restore =>
    obtain ⟨tree, inForce⟩ := b
    match inForce with
    | [] => exact ⟨_, rfl, h⟩
    | (patch, before) :: rest =>
      obtain ⟨hback, hrest⟩ := h
      have hback' : tree.restore patch = .ok before := hback
      refine ⟨⟨before, rest⟩, ?_, hrest⟩
      show (do return ⟨← tree.restore patch, rest⟩ : Except Error Bench) = .ok ⟨before, rest⟩
      rw [hback']
      rfl

/-- So does a run of moves. -/
theorem run_undoable {start : Node} {b : Bench} (h : Undoable start b.tree b.inForce)
    (moves : List Move) : ∃ b', b.run moves = .ok b' ∧ Undoable start b'.tree b'.inForce := by
  induction moves generalizing b with
  | nil => exact ⟨b, rfl, h⟩
  | cons m moves ih =>
    obtain ⟨b₁, hm, h₁⟩ := move_undoable h m
    obtain ⟨b₂, hrun, h₂⟩ := ih h₁
    refine ⟨b₂, ?_, h₂⟩
    rw [run, List.foldlM_cons, hm]
    exact hrun

/-- **Detaching and restoring are exact inverses, however they are stacked.**  A run of moves on
any tree, with candidates that need not name a try statement or even a place of the tree, never
fails; when it ends, the latest patch in force restores the tree that stood just before its
detachment, and with no patch in force the tree is the first one again. -/
theorem run_restores (start : Node) (moves : List Move) :
    ∃ b, run ⟨start, []⟩ moves = .ok b ∧
      (∀ patch before rest, b.inForce = (patch, before) :: rest →
        b.tree.restore patch = .ok before ∧ b.move .restore = .ok ⟨before, rest⟩) ∧
      (b.inForce = [] → b.tree = start) := by
  obtain ⟨b, hrun, h⟩ := run_undoable (b := ⟨start, []⟩) rfl moves
  refine ⟨b, hrun, ?_, ?_⟩
  · intro patch before rest hb
    rw [hb] at h
    obtain ⟨hback, -⟩ := h
    refine ⟨hback, ?_⟩
    simp only [move, hb, hback]
    rfl
  · intro hb
    rw [hb] at h
    exact h

end Bench

end RepairCorpus
