import RepairCorpus.Error
import RepairCorpus.Mutation.Candidate

/-!
# Taking try statements apart

Detaching a try statement puts what its block held in its place.  What exactly depends on the
owner.

* A program or a block holds a list of statements: the block's statements are spliced into it.
* An `if`, `while`, `for` or `for`-`in` has room for one statement in each place: the block's only
  statement moves up, or the whole block when it does not hold exactly one.
* No other construct gives up a try statement.

A statement exposed in this way that merely inherited its tag counts as inserted from then on,
since it was inserted together with the try statement around it.

Detaching also gives a patch, which says how to undo it: what was left of the try statement, and
which statements were retagged.  A detachment that fails changes nothing, and so does a patch that
does not fit the tree it is applied to.
-/

namespace RepairCorpus

/-! ## Retagging -/

namespace Node

/-- A node with another tag of its own. -/
def withOwn (n : Node) (t : Tag) : Node := { n with own := t }

/-- Tags an exposed statement inserted where it inherited its tag. -/
def expose (n : Node) : Node := if n.own = .inherited then n.withOwn .inserted else n

/-- Whether exposing a statement changes its tag. -/
def isRetagged (n : Node) : Bool := n.own = .inherited

/-- Takes the exposure of a statement back, if it changed the tag. -/
def conceal (retagged : Bool) (n : Node) : Node := if retagged then n.withOwn .inherited else n

@[simp] theorem conceal_expose (n : Node) : n.expose.conceal n.isRetagged = n := by
  cases n with
  | mk own underlying form =>
    by_cases h : own = .inherited <;> simp [expose, isRetagged, conceal, withOwn, h]

end Node

/-! ## Try statements without their block -/

/-- What is left of a try statement when its block is taken away. -/
structure TryFrame where
  own : Tag
  underlying : Tag
  handler : Option Node
  finalizer : Option Node
  deriving Inhabited

/-- The try statement with a block in place. -/
def TryFrame.around (f : TryFrame) (block : Node) : Node :=
  ⟨f.own, f.underlying, .tryStatement block f.handler f.finalizer⟩

/-- What is left of a block when its statements are taken away: its tags. -/
structure BlockFrame where
  own : Tag
  underlying : Tag
  deriving DecidableEq, Inhabited

/-- The block with statements in place. -/
def BlockFrame.around (f : BlockFrame) (body : List Node) : Node :=
  ⟨f.own, f.underlying, .blockStatement body⟩

/-- A try statement taken to pieces. -/
structure OpenedTry where
  frame : TryFrame
  block : BlockFrame
  body : List Node
  deriving Inhabited

namespace OpenedTry

/-- The pieces put together. -/
def close (o : OpenedTry) : Node := o.frame.around (o.block.around o.body)

/-- Takes a try statement to pieces; its block has to be a block statement. -/
def ofNode : Node → Except Error OpenedTry
  | ⟨own, underlying, .tryStatement block handler finalizer⟩ =>
    match block with
    | ⟨blockOwn, blockUnderlying, .blockStatement body⟩ =>
      .ok ⟨⟨own, underlying, handler, finalizer⟩, ⟨blockOwn, blockUnderlying⟩, body⟩
    | _ => .error (.malformed .tryBlockNotABlock)
  | _ => .error (.malformed .notATry)

/-- Only what has been put together is taken to these pieces. -/
theorem close_of_ofNode {n : Node} {o : OpenedTry} (h : ofNode n = .ok o) : o.close = n := by
  unfold ofNode at h
  split at h
  · split at h
    · cases h; rfl
    · cases h
  · cases h

end OpenedTry

/-! ## Owners -/

namespace Form

variable {α : Type}

/-- The statements of a construct that holds a list of them. -/
def statements? : Form α → Option (List α)
  | .program body => some body
  | .blockStatement body => some body
  | _ => none

/-- Replaces the statements of a construct that holds a list of them. -/
def withStatements (body : List α) : Form α → Form α
  | .program _ => .program body
  | .blockStatement _ => .blockStatement body
  | form => form

/-- Whether a construct has room for one statement in each of its places and gives it up. -/
def hasSlots (form : Form α) : Bool :=
  match form.kind with
  | .ifStatement | .whileStatement | .forStatement | .forInStatement => true
  | _ => false

end Form

/-! ## Patches -/

/-- What took the place of a try statement. -/
inductive Exposure where
  /-- The statements of its block, each with whether it was retagged. -/
  | spliced (block : BlockFrame) (retagged : List Bool)
  /-- The only statement of its block. -/
  | statement (block : BlockFrame) (retagged : Bool)
  /-- Its block. -/
  | block (retagged : Bool)
  deriving DecidableEq, Inhabited

/-- How to undo a detachment. -/
structure Patch where
  candidate : Candidate
  frame : TryFrame
  exposure : Exposure
  deriving Inhabited

/-- The error of a place that is not in the tree. -/
def lostOwner : Error := .malformed .lostOwner

namespace Form

/-- Detaches the try statement with a number from its owner. -/
def detach (form : Form Node) (index : Nat) : Except Error (Form Node × TryFrame × Exposure) :=
  match form.statements? with
  | some body =>
    match body[index]? with
    | none => .error lostOwner
    | some n => do
      let o ← OpenedTry.ofNode n
      return (form.withStatements (body.take index ++ o.body.map Node.expose ++ body.drop (index + 1)),
        o.frame, .spliced o.block (o.body.map Node.isRetagged))
  | none =>
    if form.hasSlots then
      match form.children[index]? with
      | none => .error lostOwner
      | some n => do
        let o ← OpenedTry.ofNode n
        match o.body with
        | [only] =>
          return (form.setChild index only.expose, o.frame, .statement o.block only.isRetagged)
        | _ =>
          let block := o.block.around o.body
          return (form.setChild index block.expose, o.frame, .block block.isRetagged)
    else .error (.unsupportedOwner form.kind)

/-- Puts a try statement back into its owner. -/
def restore (form : Form Node) (index : Nat) (frame : TryFrame) :
    Exposure → Except Error (Form Node)
  | .spliced block retagged =>
    match form.statements? with
    | none => .error (.unsupportedOwner form.kind)
    | some body =>
      if body.length < index + retagged.length then .error lostOwner
      else
        let exposed := (body.drop index).take retagged.length
        let inner := List.zipWith Node.conceal retagged exposed
        .ok (form.withStatements
          (body.take index ++ frame.around (block.around inner)
            :: body.drop (index + retagged.length)))
  | .statement block retagged =>
    match form.children[index]? with
    | none => .error lostOwner
    | some n =>
      .ok (form.setChild index (frame.around (block.around [n.conceal retagged])))
  | .block retagged =>
    match form.children[index]? with
    | none => .error lostOwner
    | some n => .ok (form.setChild index (frame.around (n.conceal retagged)))

end Form

namespace Node

/-- Detaches the try statement at a candidate's place. -/
def detach (root : Node) (c : Candidate) : Except Error (Node × Patch) :=
  match root.at? c.owner with
  | none => .error lostOwner
  | some owner => do
    let (form, frame, exposure) ← owner.form.detach c.index
    return (root.setAt c.owner (owner.withForm form), ⟨c, frame, exposure⟩)

/-- Undoes a detachment. -/
def restore (root : Node) (p : Patch) : Except Error Node :=
  match root.at? p.candidate.owner with
  | none => .error lostOwner
  | some owner => do
    let form ← owner.form.restore p.candidate.index p.frame p.exposure
    return root.setAt p.candidate.owner (owner.withForm form)

end Node

end RepairCorpus
