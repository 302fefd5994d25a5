import RepairCorpus.Mutation.InPlace
import RepairCorpus.Proofs.Mutation.Restoring
import RepairCorpus.Proofs.Syntax.Refs

/-!
# Edits in place are all or nothing

An edit in place takes a try statement out of the tree before it knows that it can put something in
its place.  It does know: every check that could fail later has been made on the try statement
before, and the try statement of an undo is always one around a block, since `Patch.undo` is all
that a detachment hands out.  So an edit in place does what the edit of `RepairCorpus.Mutation.Patch`
does, which hands back a new tree or none.

* `Edit.detach_eq`, `Edit.restore_undo`: edits in place are the edits on trees, and one that fails
  leaves the tree as it was.
* `Edit.failed_edits_change_nothing`: **why a detachment fails, and that neither it nor a restoration
  that fails changes the tree**, be it the tree of the detachment or any other.
-/

namespace RepairCorpus

/-! ## Numbers of retagged statements -/

/-- The numbers of the entries that are set. -/
def numbersOf (bs : List Bool) : List Nat :=
  bs.zipIdx.filterMap fun b => if b.1 then some b.2 else none

theorem retaggedNumbers_eq (ns : List Node) :
    retaggedNumbers ns = numbersOf (ns.map Node.isRetagged) := by
  rw [numbersOf, List.zipIdx_map, List.filterMap_map]
  rfl

theorem numbersOf_cons (b : Bool) (bs : List Bool) :
    numbersOf (b :: bs) = (if b then [0] else []) ++ (numbersOf bs).map (· + 1) := by
  have hrest : (bs.zipIdx.map (Prod.map id (· + 1))).filterMap
      (fun b => if b.1 then some b.2 else none) = (numbersOf bs).map (· + 1) := by
    rw [numbersOf, List.filterMap_map, List.map_filterMap]
    refine congrArg (fun f => List.filterMap f bs.zipIdx) (funext fun c => ?_)
    obtain ⟨b, i⟩ := c
    cases b <;> rfl
  rw [numbersOf, List.zipIdx_cons', ← List.singleton_append, List.filterMap_append, hrest]
  cases b <;> rfl

/-- Numbers that all count from the second statement leave the first one alone. -/
theorem concealAt_map_succ (n : Node) (ns : List Node) (is : List Nat) :
    Edit.concealAt (n :: ns) (is.map (· + 1)) = n :: Edit.concealAt ns is := by
  induction is generalizing ns with
  | nil => rfl
  | cons i is ih => exact ih (ns.modify i (Node.conceal true))

/-- Taking exposures back by number takes them back one by one. -/
theorem concealAt_numbersOf {bs : List Bool} {ns : List Node} (h : bs.length = ns.length) :
    Edit.concealAt ns (numbersOf bs) = List.zipWith Node.conceal bs ns := by
  induction bs generalizing ns with
  | nil =>
    obtain rfl := List.length_eq_zero_iff.mp h.symm
    rfl
  | cons b bs ih =>
    cases ns with
    | nil => exact absurd h (Nat.succ_ne_zero _)
    | cons n ns =>
      rw [numbersOf_cons, List.zipWith_cons_cons, ← ih (Nat.succ.inj h)]
      cases b with
      | false => exact concealAt_map_succ n ns _
      | true => exact concealAt_map_succ (n.conceal true) ns _

/-- A list without one entry, taken apart at that place. -/
theorem eraseIdx_parts {γ : Type} {xs : List γ} {i : Nat} (hi : i < xs.length) :
    (xs.eraseIdx i).take i = xs.take i ∧ (xs.eraseIdx i).drop i = xs.drop (i + 1) := by
  obtain ⟨hfront, -, hback⟩ := Form.splice_parts hi []
  rw [List.append_nil, ← List.eraseIdx_eq_take_drop_succ] at hfront hback
  exact ⟨hfront, hback⟩

/-! ## Steps -/

namespace Edit

variable {α β : Type} {s t : Node}

theorem bind_of_ok {x : Edit α} {a : α} (h : x.run s = .ok a t) (f : α → Edit β) :
    (x >>= f).run s = (f a).run t := by
  rw [EStateM.run_bind, h]

theorem bind_of_error {x : Edit α} {e : Error} (h : x.run s = .error e t) (f : α → Edit β) :
    (x >>= f).run s = .error e t := by
  rw [EStateM.run_bind, h]

/-- What an edit comes to that writes a whole result or nothing. -/
def allOrNothing (tree : Node) : Except Error (α × Node) → EStateM.Result Error Node α
  | .ok (a, tree) => .ok a tree
  | .error e => .error e tree

theorem found_some (x : α) : (found (some x)).run s = .ok x s := rfl

theorem put_eq (ref : Ref α Node) (x : α) : (put ref x).run s = .ok () (ref.fill x) := rfl

theorem reach_of_at? {m : Node} {p : Path} (h : s.at? p = some m) :
    (reach p).run s = .ok ⟨m, s.setAt p⟩ s := by
  show (found (s.refAt? p)).run s = _
  rw [Node.refAt?_eq, h]
  rfl

theorem reach_eq_error {p : Path} (h : s.at? p = none) :
    (reach p).run s = .error lostOwner s := by
  show (found (s.refAt? p)).run s = _
  rw [Node.refAt?_eq, h]
  rfl

/-- The kinds that hold a list, and those that have places for single statements. -/
theorem shape_eq (n : Node) :
    (shape n.kind).run s = match n.form.statements? with
      | some _ => .ok .list s
      | none =>
        if n.form.hasSlots then .ok .slots s else .error (.unsupportedOwner n.kind) s := by
  obtain ⟨own, underlying, form⟩ := n
  cases form <;> rfl

theorem statementList_of {owner : Node} {body : List Node} (h : owner.form.statements? = some body)
    (fill : Node → Node) :
    (statementList ⟨owner, fill⟩).run s
      = .ok ⟨body, fun xs => fill (owner.withForm (owner.form.withStatements xs))⟩ s := by
  rw [statementList]
  simp only [h]
  rfl

theorem statementList_eq_error {owner : Node} (h : owner.form.statements? = none)
    (fill : Node → Node) :
    (statementList ⟨owner, fill⟩).run s = .error (.unsupportedOwner owner.kind) s := by
  rw [statementList]
  simp only [h]
  rfl

theorem part_of {owner n : Node} {i : Nat} (h : owner.form.children[i]? = some n)
    (fill : Node → Node) :
    (part ⟨owner, fill⟩ i).run s
      = .ok ⟨n, fun x => fill (owner.withForm (owner.form.setChild i x))⟩ s := by
  rw [part, Node.getElem?_refs, show owner.children[i]? = some n from h]
  rfl

theorem part_eq_error {owner : Node} {i : Nat} (h : owner.form.children[i]? = none)
    (fill : Node → Node) : (part ⟨owner, fill⟩ i).run s = .error lostOwner s := by
  rw [part, Node.getElem?_refs, show owner.children[i]? = none from h]
  rfl

/-- The check before a move is the one that taking to pieces makes. -/
theorem validate_eq (n : Node) :
    (validate n).run s = allOrNothing s ((OpenedTry.ofNode n).map fun _ => ((), s)) := by
  obtain ⟨own, underlying, form⟩ := n
  cases form
  case tryStatement block handler finalizer =>
    obtain ⟨blockOwn, blockUnderlying, form⟩ := block
    cases form <;> rfl
  all_goals rfl

theorem tryBlock_around (frame : TryFrame) (block : BlockFrame) (body : List Node) :
    (tryBlock (frame.around (block.around body))).run s
      = .ok ⟨body, fun xs => frame.around (block.around xs)⟩ s := rfl

/-- Behind the check the statements of the block are there. -/
theorem tryBlock_close (o : OpenedTry) :
    (tryBlock o.close).run s = .ok ⟨o.body, fun xs => o.frame.around (o.block.around xs)⟩ s :=
  tryBlock_around o.frame o.block o.body

/-! ## Detaching -/

end Edit

/-- What an edit in place keeps of a patch. -/
def Patch.undo (p : Patch) : Undo :=
  match p.exposure with
  | .spliced block retagged =>
    ⟨p.candidate, p.frame.around (block.around []), .spliced retagged.length (numbersOf retagged)⟩
  | .statement block retagged => ⟨p.candidate, p.frame.around (block.around []), .statement retagged⟩
  | .block retagged =>
    ⟨p.candidate, p.frame.around (Node.untagged (.blockStatement [])), .block retagged⟩

/-- The numbers that an edit in place keeps are those of the statements that were retagged. -/
theorem Patch.undo_spliced (c : Candidate) (o : OpenedTry) :
    undo ⟨c, o.frame, .spliced o.block (o.body.map Node.isRetagged)⟩
      = ⟨c, o.frame.around (o.block.around []),
        .spliced o.body.length (retaggedNumbers o.body)⟩ := by
  simp only [undo, List.length_map, retaggedNumbers_eq]

namespace Edit

section Owner

variable {root owner : Node} {c : Candidate} (howner : root.at? c.owner = some owner)

include howner

theorem detachFromList_eq {body : List Node} (hs : owner.form.statements? = some body) :
    (detachFromList c ⟨owner, root.setAt c.owner⟩).run root
      = allOrNothing root ((root.detach c).map fun r => (r.2.undo, r.1)) := by
  rw [Node.detach_of_at? howner, Form.detach, detachFromList, bind_of_ok (statementList_of hs _)]
  simp only [hs]
  cases hn : body[c.index]? with
  | none => rfl
  | some n =>
    rw [bind_of_ok (found_some n)]
    dsimp only
    cases ho : OpenedTry.ofNode n with
    | error e =>
      have hcheck : (validate n).run root = .error e root := by rw [validate_eq, ho]; rfl
      rw [bind_of_error hcheck]
      rfl
    | ok o =>
      have hcheck : (validate n).run root = .ok () root := by rw [validate_eq, ho]; rfl
      obtain rfl := OpenedTry.close_of_ofNode ho
      rw [bind_of_ok hcheck, bind_of_ok (put_eq _ _), bind_of_ok (tryBlock_close o),
        bind_of_ok (put_eq _ _)]
      obtain ⟨hi, -⟩ := List.getElem?_eq_some_iff.mp hn
      obtain ⟨hfront, hback⟩ := eraseIdx_parts hi
      simp only [hfront, hback]
      show EStateM.Result.ok _ _ = EStateM.Result.ok (Patch.undo _) _
      rw [Patch.undo_spliced]

theorem detachFromSlot_eq (hs : owner.form.statements? = none)
    (hslots : owner.form.hasSlots = true) :
    (detachFromSlot c ⟨owner, root.setAt c.owner⟩).run root
      = allOrNothing root ((root.detach c).map fun r => (r.2.undo, r.1)) := by
  rw [Node.detach_of_at? howner, Form.detach, detachFromSlot]
  simp only [hs, hslots, if_true]
  cases hn : owner.form.children[c.index]? with
  | none =>
    rw [bind_of_error (part_eq_error hn _)]
    rfl
  | some n =>
    rw [bind_of_ok (part_of hn _)]
    dsimp only
    cases ho : OpenedTry.ofNode n with
    | error e =>
      have hcheck : (validate n).run root = .error e root := by rw [validate_eq, ho]; rfl
      rw [bind_of_error hcheck]
      rfl
    | ok o =>
      have hcheck : (validate n).run root = .ok () root := by rw [validate_eq, ho]; rfl
      obtain rfl := OpenedTry.close_of_ofNode ho
      rw [bind_of_ok hcheck, bind_of_ok (put_eq _ _), bind_of_ok (tryBlock_close o)]
      -- whether the block moves or its statement does depends on how many statements it has
      obtain ⟨frame, block, _ | ⟨only, _ | ⟨next, rest⟩⟩⟩ := o
      · rfl
      · rfl
      · rfl

end Owner

/-- **Detaching in place is detaching**, and where it fails the tree is left as it was. -/
theorem detach_eq (c : Candidate) (root : Node) :
    (detach c).run root = allOrNothing root ((root.detach c).map fun r => (r.2.undo, r.1)) := by
  unfold detach
  cases howner : root.at? c.owner with
  | none =>
    rw [bind_of_error (reach_eq_error howner), Node.detach, howner]
    rfl
  | some owner =>
    rw [bind_of_ok (reach_of_at? howner)]
    have hshape := shape_eq (s := root) owner
    cases hs : owner.form.statements? with
    | some body =>
      rw [hs] at hshape
      rw [bind_of_ok hshape]
      exact detachFromList_eq howner hs
    | none =>
      rw [hs] at hshape
      cases hslots : owner.form.hasSlots with
      | true =>
        rw [hslots] at hshape
        rw [bind_of_ok hshape]
        exact detachFromSlot_eq howner hs hslots
      | false =>
        rw [hslots] at hshape
        rw [bind_of_error hshape, Node.detach_of_at? howner, Form.detach]
        simp only [hs, hslots]
        rfl

/-! ## Restoring -/

section Owner

variable {root owner : Node} {c : Candidate} (howner : root.at? c.owner = some owner)
  (frame : TryFrame) (block : BlockFrame)

include howner

theorem restoreSpliced_eq (retagged : List Bool) (trace : Trace) :
    (restoreSpliced ⟨c, frame.around (block.around []), trace⟩ retagged.length
        (numbersOf retagged) ⟨owner, root.setAt c.owner⟩).run root
      = allOrNothing root
        ((root.restore ⟨c, frame, .spliced block retagged⟩).map fun t => ((), t)) := by
  rw [Node.restore, howner, restoreSpliced]
  cases hs : owner.form.statements? with
  | none =>
    rw [bind_of_error (statementList_eq_error hs _)]
    simp only [Form.restore, hs]
    rfl
  | some body =>
    rw [bind_of_ok (statementList_of hs _)]
    simp only [Form.restore, hs]
    by_cases hlen : body.length < c.index + retagged.length
    · simp only [if_pos hlen]
      rfl
    · simp only [if_neg hlen]
      have hfront : (body.take c.index).length = c.index := List.length_take_of_le (by omega)
      have hfit : retagged.length = ((body.drop c.index).take retagged.length).length := by
        rw [List.length_take_of_le]
        rw [List.length_drop]
        omega
      rw [bind_of_ok (put_eq _ _), bind_of_ok (tryBlock_around frame block [])]
      simp only [List.take_left' hfront, List.drop_left' hfront, concealAt_numbersOf hfit]
      rfl

theorem restoreStatement_eq (retagged : Bool) (trace : Trace) :
    (restoreStatement ⟨c, frame.around (block.around []), trace⟩ retagged
        ⟨owner, root.setAt c.owner⟩).run root
      = allOrNothing root
        ((root.restore ⟨c, frame, .statement block retagged⟩).map fun t => ((), t)) := by
  rw [Node.restore, howner, restoreStatement]
  simp only [Form.restore]
  cases hn : owner.form.children[c.index]? with
  | none =>
    rw [bind_of_error (part_eq_error hn _)]
    rfl
  | some n =>
    rw [bind_of_ok (part_of hn _), bind_of_ok (put_eq _ _),
      bind_of_ok (tryBlock_around frame block [])]
    rfl

omit block in
theorem restoreBlock_eq (stub : Node) (retagged : Bool) (trace : Trace) :
    (restoreBlock ⟨c, frame.around stub, trace⟩ retagged ⟨owner, root.setAt c.owner⟩).run root
      = allOrNothing root
        ((root.restore ⟨c, frame, .block retagged⟩).map fun t => ((), t)) := by
  rw [Node.restore, howner, restoreBlock]
  simp only [Form.restore]
  cases hn : owner.form.children[c.index]? with
  | none =>
    rw [bind_of_error (part_eq_error hn _)]
    rfl
  | some n =>
    rw [bind_of_ok (part_of hn _), bind_of_ok (put_eq _ _)]
    rfl

end Owner

/-- **Undoing in place is restoring**, and where it fails the tree is left as it was, even if it is
not the tree that the undo is for. -/
theorem restore_undo (p : Patch) (root : Node) :
    (restore p.undo).run root = allOrNothing root ((root.restore p).map fun t => ((), t)) := by
  obtain ⟨c, frame, exposure⟩ := p
  cases howner : root.at? c.owner with
  | none =>
    have hlost : root.restore ⟨c, frame, exposure⟩ = .error lostOwner := by
      simp only [Node.restore, howner]
    rw [hlost]
    cases exposure <;> exact bind_of_error (reach_eq_error howner) _
  | some owner =>
    cases exposure with
    | spliced block retagged =>
      exact (bind_of_ok (reach_of_at? howner) _).trans
        (restoreSpliced_eq howner frame block retagged _)
    | statement block retagged =>
      exact (bind_of_ok (reach_of_at? howner) _).trans
        (restoreStatement_eq howner frame block retagged _)
    | block retagged =>
      exact (bind_of_ok (reach_of_at? howner) _).trans
        (restoreBlock_eq howner frame _ retagged _)

end Edit

/-! ## Obstacles -/

/-- What keeps a candidate from being detached, and the error that says so.  Each obstacle is met
only where those before it are not. -/
inductive Obstacle (tree : Node) (c : Candidate) : Error → Prop
  /-- The path to the owner leads nowhere. -/
  | noOwner : tree.at? c.owner = none → Obstacle tree c lostOwner
  /-- The owner does not give up try statements. -/
  | unsupported {owner : Node} : tree.at? c.owner = some owner → owner.kind.givesUpTry = false →
    Obstacle tree c (.unsupportedOwner owner.kind)
  /-- The owner has no part with that number. -/
  | noPart {owner : Node} : tree.at? c.owner = some owner → owner.kind.givesUpTry = true →
    owner.children.length ≤ c.index → Obstacle tree c lostOwner
  /-- The part is not a try statement. -/
  | notATry {owner n : Node} : tree.at? c.owner = some owner → owner.kind.givesUpTry = true →
    owner.children[c.index]? = some n → n.kind ≠ .tryStatement →
    Obstacle tree c (.malformed .notATry)
  /-- The try statement is not one around a block. -/
  | notABlock {owner n block : Node} {handler finalizer : Option Node} :
    tree.at? c.owner = some owner → owner.kind.givesUpTry = true →
    owner.children[c.index]? = some n → n.form = .tryStatement block handler finalizer →
    block.kind ≠ .blockStatement → Obstacle tree c (.malformed .tryBlockNotABlock)

theorem Node.exists_tryStatement {n : Node} (h : n.kind = .tryStatement) :
    ∃ own underlying block handler finalizer,
      n = ⟨own, underlying, .tryStatement block handler finalizer⟩ := by
  obtain ⟨own, underlying, form⟩ := n
  cases form
  case tryStatement block handler finalizer => exact ⟨_, _, _, _, _, rfl⟩
  all_goals cases h

theorem OpenedTry.ofNode_eq_error_iff {n : Node} {e : Error} :
    ofNode n = .error e ↔
      n.kind ≠ .tryStatement ∧ .malformed .notATry = e ∨
      (∃ block handler finalizer, n.form = .tryStatement block handler finalizer ∧
        block.kind ≠ .blockStatement) ∧ .malformed .tryBlockNotABlock = e := by
  by_cases hkind : n.kind = .tryStatement
  · obtain ⟨own, underlying, block, handler, finalizer, rfl⟩ := Node.exists_tryStatement hkind
    rcases ofNode_tryStatement own underlying block handler finalizer with
      ⟨⟨o, ho⟩, hblock⟩ | ⟨he, hblock⟩
    · rw [ho]
      refine iff_of_false (fun h => by cases h) ?_
      rintro (⟨hne, -⟩ | ⟨⟨block, handler, finalizer, hform, hne⟩, -⟩)
      · exact hne hkind
      · cases hform
        exact hne hblock
    · rw [he, Except.error.injEq]
      exact ⟨fun h => .inr ⟨⟨_, _, _, rfl, hblock⟩, h⟩,
        fun h => h.elim (fun h => absurd hkind h.1) fun h => h.2⟩
  · rw [ofNode_of_kind_ne hkind, Except.error.injEq]
    refine ⟨fun h => .inl ⟨hkind, h⟩, ?_⟩
    rintro (h | ⟨⟨block, handler, finalizer, hform, -⟩, -⟩)
    · exact h.2
    · exact absurd (congrArg Form.kind hform) hkind

namespace Node

/-- **A detachment fails exactly at the first obstacle**, and with its error. -/
theorem detach_eq_error_iff {tree : Node} {c : Candidate} {e : Error} :
    tree.detach c = .error e ↔ Obstacle tree c e := by
  constructor
  · intro h
    cases howner : tree.at? c.owner with
    | none =>
      simp only [detach, howner, Except.error.injEq] at h
      exact h ▸ .noOwner howner
    | some owner =>
      cases hgives : owner.kind.givesUpTry with
      | false =>
        cases (detach_of_not_givesUpTry howner hgives).symm.trans h
        exact .unsupported howner hgives
      | true =>
        cases hn : owner.children[c.index]? with
        | none =>
          cases (detach_of_no_part howner hgives hn).symm.trans h
          exact .noPart howner hgives (List.getElem?_eq_none_iff.mp hn)
        | some n =>
          rw [detach_of_part howner hgives hn, Except.map_eq_error_iff] at h
          rcases OpenedTry.ofNode_eq_error_iff.mp h with
            ⟨hkind, rfl⟩ | ⟨⟨block, handler, finalizer, hform, hblock⟩, rfl⟩
          · exact .notATry howner hgives hn hkind
          · exact .notABlock howner hgives hn hform hblock
  · intro h
    cases h with
    | noOwner howner => simp only [detach, howner]
    | unsupported howner hgives => exact detach_of_not_givesUpTry howner hgives
    | noPart howner hgives hlen =>
      exact detach_of_no_part howner hgives (List.getElem?_eq_none_iff.mpr hlen)
    | notATry howner hgives hn hkind =>
      rw [detach_of_part howner hgives hn, Except.map_eq_error_iff]
      exact OpenedTry.ofNode_eq_error_iff.mpr (.inl ⟨hkind, rfl⟩)
    | notABlock howner hgives hn hform hblock =>
      rw [detach_of_part howner hgives hn, Except.map_eq_error_iff]
      exact OpenedTry.ofNode_eq_error_iff.mpr (.inr ⟨⟨_, _, _, hform, hblock⟩, rfl⟩)

end Node

namespace Edit

theorem allOrNothing_eq_ok_iff {α : Type} {tree left : Node} {a : α}
    {x : Except Error (α × Node)} : allOrNothing tree x = .ok a left ↔ x = .ok (a, left) := by
  rcases x with e | ⟨b, t⟩
  · simp only [allOrNothing, reduceCtorEq]
  · simp only [allOrNothing, EStateM.Result.ok.injEq, Except.ok.injEq, Prod.mk.injEq]

theorem allOrNothing_eq_error_iff {α : Type} {tree left : Node} {e : Error}
    {x : Except Error (α × Node)} :
    allOrNothing tree x = .error e left ↔ x = .error e ∧ left = tree := by
  rcases x with e' | ⟨b, t⟩
  · simp only [allOrNothing, EStateM.Result.error.injEq, Except.error.injEq, eq_comm]
  · simp only [allOrNothing, reduceCtorEq, false_and]

/-- **Edits in place that fail change nothing.**  A detachment fails exactly at the first obstacle
in its way, with the error of that obstacle, and leaves the tree as it was; and what a detachment
has handed out, on whatever tree it is used, either undoes something or leaves the tree as it was. -/
theorem failed_edits_change_nothing (tree : Node) (c : Candidate) :
    (∀ e left, (detach c).run tree = .error e left ↔ Obstacle tree c e ∧ left = tree) ∧
    ∀ undo left, (detach c).run tree = .ok undo left →
      ∀ other e left', (restore undo).run other = .error e left' → left' = other := by
  refine ⟨fun e left => ?_, fun undo left h other e left' hfail => ?_⟩
  · rw [detach_eq, allOrNothing_eq_error_iff, Except.map_eq_error_iff, Node.detach_eq_error_iff]
  · rw [detach_eq, allOrNothing_eq_ok_iff] at h
    obtain ⟨⟨t, p⟩, -, heq⟩ := Except.map_eq_ok_iff.mp h
    obtain ⟨rfl, rfl⟩ := Prod.mk.inj heq
    rw [restore_undo, allOrNothing_eq_error_iff] at hfail
    exact hfail.2

/-- Two statements come out of a program that is one try statement, and the undo asks for two
statements in the empty program, which stays empty. -/
example : ∃ undo left,
    (detach ⟨[], 0⟩).run (Node.untagged (.program [Node.untagged (.tryStatement
      (Node.untagged (.blockStatement
        [Node.untagged .emptyStatement, Node.untagged .debuggerStatement])) none none)]))
      = .ok undo left ∧
    (restore undo).run (Node.untagged (.program []))
      = .error lostOwner (Node.untagged (.program [])) := ⟨_, _, rfl, rfl⟩

end Edit

end RepairCorpus
