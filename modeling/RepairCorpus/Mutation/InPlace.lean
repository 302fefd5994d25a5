import RepairCorpus.Mutation.Patch
import RepairCorpus.Syntax.Ref

/-!
# Taking try statements apart in place

The same edits as in `RepairCorpus.Mutation.Patch`, made on one tree that changes under them.  They
move parts out of the tree before the parts that take their places are moved in, and a fixed
placeholder stands where a part has gone.  Several steps after such a move can still fail.

An edit that fails keeps what it has written.  Nothing in these definitions puts a tree back: that a
failing edit leaves the tree as it was is a property of the order of the steps.
-/

namespace RepairCorpus

/-! ## Edits -/

/-- Work on a tree.  Where it fails, the tree is left as the steps so far have made it. -/
abbrev Edit := EStateM Error Node

namespace Edit

variable {α : Type}

/-- What has been looked up, if it was there. -/
def found : Option α → Edit α
  | some x => return x
  | none => throw lostOwner

/-- The reference to the node at the end of a path. -/
def reach (p : Path) : Edit (Ref Node Node) := do found ((← get).refAt? p)

/-- Puts something where a reference into the tree leads. -/
def put (ref : Ref α Node) (x : α) : Edit Unit := set (ref.fill x)

end Edit

/-! ## Looking before moving -/

/-- How an owner holds its statements. -/
inductive OwnerShape where
  | list
  | slots
  deriving DecidableEq, Inhabited

namespace Edit

/-- How an owner of a kind holds its statements, if it gives up try statements. -/
def shape : Kind → Edit OwnerShape
  | .program | .blockStatement => return .list
  | .ifStatement | .whileStatement | .forStatement | .forInStatement => return .slots
  | kind => throw (.unsupportedOwner kind)

/-- The list of statements in an owner. -/
def statementList (owner : Ref Node Node) : Edit (Ref (List Node) Node) :=
  match owner.held.form.statements? with
  | some body =>
    return ⟨body, fun xs => owner.fill (owner.held.withForm (owner.held.form.withStatements xs))⟩
  | none => throw (.unsupportedOwner owner.held.kind)

/-- The reference to the part of an owner with a number. -/
def part (owner : Ref Node Node) (index : Nat) : Edit (Ref Node Node) :=
  found (owner.held.refs[index]?.map (·.within owner.fill))

/-- Checks that a node is a try statement around a block. -/
def validate (n : Node) : Edit Unit :=
  match n.form with
  | .tryStatement block _ _ =>
    if block.kind = .blockStatement then return else throw (.malformed .tryBlockNotABlock)
  | _ => throw (.malformed .notATry)

/-- The statements in the block of a try statement, as a list that can be filled anew. -/
def tryBlock (n : Node) : Edit (Ref (List Node) Node) :=
  match n.form with
  | .tryStatement block handler finalizer =>
    match block.form with
    | .blockStatement body =>
      return ⟨body, fun xs =>
        n.withForm (.tryStatement (block.withForm (.blockStatement xs)) handler finalizer)⟩
    | _ => throw (.malformed .tryBlockNotABlock)
  | _ => throw (.malformed .notATry)

/-- Takes the block out of a try statement and leaves an empty one. -/
def takeBlock (n : Node) : Edit (Node × Node) :=
  match n.form with
  | .tryStatement block handler finalizer =>
    return (block,
      n.withForm (.tryStatement (Node.untagged (.blockStatement [])) handler finalizer))
  | _ => throw (.malformed .notATry)

/-- Takes the last statement out of the block of a try statement. -/
def takeStatement (n : Node) : Edit (Node × Node) := do
  let inner ← tryBlock n
  match inner.held.getLast? with
  | some last => return (last, inner.fill inner.held.dropLast)
  | none => throw (.malformed .tryBlockEmptied)

end Edit

/-! ## Detaching -/

/-- What took the place of a try statement, as an edit in place records it. -/
inductive Trace where
  /-- Some statements, and which of them were retagged, by their numbers. -/
  | spliced (length : Nat) (retagged : List Nat)
  /-- The only statement of its block. -/
  | statement (retagged : Bool)
  /-- Its block. -/
  | block (retagged : Bool)
  deriving DecidableEq, Inhabited

/-- How an edit in place is undone. -/
structure Undo where
  candidate : Candidate
  /-- The try statement, its block emptied or replaced by an empty one. -/
  tryNode : Node
  trace : Trace
  deriving Inhabited

/-- The numbers of the statements that exposing retags. -/
def retaggedNumbers (ns : List Node) : List Nat :=
  ns.zipIdx.filterMap fun n => if n.1.isRetagged then some n.2 else none

namespace Edit

/-- Detaches the try statement with a number from a list of statements. -/
def detachFromList (c : Candidate) (owner : Ref Node Node) : Edit Undo := do
  let body ← statementList owner
  let n ← found body.held[c.index]?
  validate n
  let others := body.held.eraseIdx c.index
  put body others
  let inner ← tryBlock n
  put body (others.take c.index ++ inner.held.map Node.expose ++ others.drop c.index)
  return ⟨c, inner.fill [], .spliced inner.held.length (retaggedNumbers inner.held)⟩

/-- Detaches the try statement in a place for a single statement. -/
def detachFromSlot (c : Candidate) (owner : Ref Node Node) : Edit Undo := do
  let slot ← part owner c.index
  validate slot.held
  put slot (Node.untagged .emptyStatement)
  let promote := (← tryBlock slot.held).held.length == 1
  let (exposed, tryNode) ← if promote then takeStatement slot.held else takeBlock slot.held
  put slot exposed.expose
  return ⟨c, tryNode,
    if promote then .statement exposed.isRetagged else .block exposed.isRetagged⟩

/-- Detaches the try statement at a candidate's place. -/
def detach (c : Candidate) : Edit Undo := do
  let owner ← reach c.owner
  match ← shape owner.held.kind with
  | .list => detachFromList c owner
  | .slots => detachFromSlot c owner

/-! ## Undoing it -/

/-- Takes the exposure back of the statements with some numbers; numbers that no statement has are
passed over. -/
def concealAt (ns : List Node) (retagged : List Nat) : List Node :=
  retagged.foldl (fun ns i => ns.modify i (Node.conceal true)) ns

/-- Gathers spliced statements into their try statement again. -/
def restoreSpliced (u : Undo) (length : Nat) (retagged : List Nat) (owner : Ref Node Node) :
    Edit Unit := do
  let index := u.candidate.index
  let body ← statementList owner
  if body.held.length < index + length then throw lostOwner
  let others := body.held.take index ++ body.held.drop (index + length)
  put body others
  let inner ← tryBlock u.tryNode
  let statements := concealAt ((body.held.drop index).take length) retagged
  put body (others.take index ++ inner.fill statements :: others.drop index)

/-- Puts the only statement in a place back into the block of its try statement. -/
def restoreStatement (u : Undo) (retagged : Bool) (owner : Ref Node Node) : Edit Unit := do
  let slot ← part owner u.candidate.index
  put slot (Node.untagged .emptyStatement)
  let inner ← tryBlock u.tryNode
  put slot (inner.fill (inner.held ++ [slot.held.conceal retagged]))

/-- Puts the block in a place back into its try statement. -/
def restoreBlock (u : Undo) (retagged : Bool) (owner : Ref Node Node) : Edit Unit := do
  let slot ← part owner u.candidate.index
  put slot (Node.untagged .emptyStatement)
  match u.tryNode.form with
  | .tryStatement _ handler finalizer =>
    put slot (u.tryNode.withForm (.tryStatement (slot.held.conceal retagged) handler finalizer))
  | _ => throw (.malformed .patchedNotATry)

/-- Undoes a detachment. -/
def restore (u : Undo) : Edit Unit := do
  let owner ← reach u.candidate.owner
  match u.trace with
  | .spliced length retagged => restoreSpliced u length retagged owner
  | .statement retagged => restoreStatement u retagged owner
  | .block retagged => restoreBlock u retagged owner

end Edit

end RepairCorpus
