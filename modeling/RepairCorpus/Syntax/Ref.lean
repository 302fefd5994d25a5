import RepairCorpus.Syntax.Path

/-!
# References

A reference is a place where a part stands in a whole, as an edit sees it: what stands there, and the
whole with something else in its place.  An edit that goes down a path takes one reference after the
other, and what it leaves at the end is handed up through all of them.

`Form.refs` lists the references of a construct one by one and makes no use of `children` or
`setChild`.  That they hold the children, in the same order, and that filling one is `setChild`, is
therefore something to prove (`RepairCorpus.Proofs.Syntax.Refs`).
-/

namespace RepairCorpus

/-- A place in a whole where a part stands. -/
structure Ref (α β : Type) where
  /-- What stands there. -/
  held : α
  /-- The whole with something else in its place. -/
  fill : α → β

namespace Ref

variable {α β γ : Type}

/-- The same place in a larger whole. -/
def within (r : Ref α β) (f : β → γ) : Ref α γ := ⟨r.held, fun x => f (r.fill x)⟩

/-- The reference to an optional part, if the part is there. -/
def ofOption : Option α → (Option α → β) → List (Ref α β)
  | none, _ => []
  | some x, f => [⟨x, fun y => f (some y)⟩]

/-- The references to listed parts. -/
def ofList : List α → (List α → β) → List (Ref α β)
  | [], _ => []
  | x :: xs, f => ⟨x, fun y => f (y :: xs)⟩ :: ofList xs fun ys => f (x :: ys)

/-- The references to the parts in a list with holes. -/
def ofHoles : List (Option α) → (List (Option α) → β) → List (Ref α β)
  | [], _ => []
  | none :: xs, f => ofHoles xs fun ys => f (none :: ys)
  | some x :: xs, f => ⟨x, fun y => f (some y :: xs)⟩ :: ofHoles xs fun ys => f (some x :: ys)

end Ref

namespace Form

open Ref (ofOption ofList ofHoles)

variable {α : Type}

/-- The references to the parts that are present, in source order. -/
def refs : Form α → List (Ref α (Form α))
  | .program body => ofList body .program
  | .blockStatement body => ofList body .blockStatement
  | .variableDeclaration kind declarations => ofList declarations (.variableDeclaration kind)
  | .variableDeclarator id init =>
    [⟨id, fun x => .variableDeclarator x init⟩] ++ ofOption init (.variableDeclarator id)
  | .functionDeclaration id params body =>
    ofOption id (fun x => .functionDeclaration x params body)
      ++ ofList params (fun xs => .functionDeclaration id xs body)
      ++ [⟨body, .functionDeclaration id params⟩]
  | .functionExpression id params body =>
    ofOption id (fun x => .functionExpression x params body)
      ++ ofList params (fun xs => .functionExpression id xs body)
      ++ [⟨body, .functionExpression id params⟩]
  | .expressionStatement expression => [⟨expression, .expressionStatement⟩]
  | .breakStatement label => ofOption label .breakStatement
  | .continueStatement label => ofOption label .continueStatement
  | .whileStatement test body =>
    [⟨test, fun x => .whileStatement x body⟩, ⟨body, .whileStatement test⟩]
  | .doWhileStatement body test =>
    [⟨body, fun x => .doWhileStatement x test⟩, ⟨test, .doWhileStatement body⟩]
  | .emptyStatement => []
  | .emptyExpression => []
  | .labeledStatement label body =>
    [⟨label, fun x => .labeledStatement x body⟩, ⟨body, .labeledStatement label⟩]
  | .forStatement init test update body =>
    ofOption init (fun x => .forStatement x test update body)
      ++ ofOption test (fun x => .forStatement init x update body)
      ++ ofOption update (fun x => .forStatement init test x body)
      ++ [⟨body, .forStatement init test update⟩]
  | .forInStatement left right body =>
    [⟨left, fun x => .forInStatement x right body⟩, ⟨right, fun x => .forInStatement left x body⟩,
      ⟨body, .forInStatement left right⟩]
  | .ifStatement test consequent alternate =>
    [⟨test, fun x => .ifStatement x consequent alternate⟩,
        ⟨consequent, fun x => .ifStatement test x alternate⟩]
      ++ ofOption alternate (.ifStatement test consequent)
  | .debuggerStatement => []
  | .returnStatement argument => ofOption argument .returnStatement
  | .switchStatement discriminant cases =>
    [⟨discriminant, fun x => .switchStatement x cases⟩]
      ++ ofList cases (.switchStatement discriminant)
  | .switchCase test consequent =>
    ofOption test (fun x => .switchCase x consequent) ++ ofList consequent (.switchCase test)
  | .throwStatement argument => [⟨argument, .throwStatement⟩]
  | .tryStatement block handler finalizer =>
    [⟨block, fun x => .tryStatement x handler finalizer⟩]
      ++ ofOption handler (fun x => .tryStatement block x finalizer)
      ++ ofOption finalizer (.tryStatement block handler)
  | .catchClause param body =>
    ofOption param (fun x => .catchClause x body) ++ [⟨body, .catchClause param⟩]
  | .withStatement object body =>
    [⟨object, fun x => .withStatement x body⟩, ⟨body, .withStatement object⟩]
  | .identifier _ => []
  | .literal _ _ _ => []
  | .xmlLiteral => []
  | .arrayExpression elements => ofHoles elements .arrayExpression
  | .assignmentExpression operator left right =>
    [⟨left, fun x => .assignmentExpression operator x right⟩,
      ⟨right, .assignmentExpression operator left⟩]
  | .conditionalExpression test consequent alternate =>
    [⟨test, fun x => .conditionalExpression x consequent alternate⟩,
      ⟨consequent, fun x => .conditionalExpression test x alternate⟩,
      ⟨alternate, .conditionalExpression test consequent⟩]
  | .memberExpression object member computed =>
    [⟨object, fun x => .memberExpression x member computed⟩,
      ⟨member, fun x => .memberExpression object x computed⟩]
  | .callExpression callee arguments =>
    [⟨callee, fun x => .callExpression x arguments⟩] ++ ofList arguments (.callExpression callee)
  | .newExpression callee arguments =>
    [⟨callee, fun x => .newExpression x arguments⟩] ++ ofList arguments (.newExpression callee)
  | .binaryExpression operator left right =>
    [⟨left, fun x => .binaryExpression operator x right⟩, ⟨right, .binaryExpression operator left⟩]
  | .logicalExpression operator left right =>
    [⟨left, fun x => .logicalExpression operator x right⟩,
      ⟨right, .logicalExpression operator left⟩]
  | .thisExpression => []
  | .objectExpression properties => ofList properties .objectExpression
  | .property key value computed kind method shorthand =>
    [⟨key, fun x => .property x value computed kind method shorthand⟩,
      ⟨value, fun x => .property key x computed kind method shorthand⟩]
  | .unaryExpression operator argument isPrefix =>
    [⟨argument, fun x => .unaryExpression operator x isPrefix⟩]
  | .updateExpression operator argument isPrefix =>
    [⟨argument, fun x => .updateExpression operator x isPrefix⟩]
  | .yieldExpression argument delegate =>
    ofOption argument fun x => .yieldExpression x delegate
  | .placeholder _ => []
  | .other => []

end Form

namespace Node

/-- The references to the parts of a node. -/
def refs (n : Node) : List (Ref Node Node) := n.form.refs.map (·.within n.withForm)

/-- The reference to the node at the end of a path. -/
def refAt? : Node → Path → Option (Ref Node Node)
  | n, [] => some ⟨n, id⟩
  | n, i :: p => n.refs[i]?.bind fun s => (s.held.refAt? p).map (·.within s.fill)

end Node

end RepairCorpus
