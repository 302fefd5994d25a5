import RepairCorpus.Syntax.Form
import RepairCorpus.Syntax.Tag

/-!
# Trees

A node is a form whose parts are nodes, with two tags: the diff's tag of the node itself, and the
tag that was passed down to it when a whole construct was diffed as one piece.

All recursion over trees goes through `Node.fold`: a pass says what to do at one construct when
it knows each part and that part's result.  Its unfolding rule `Node.fold_mk` is all that later
modules use, and `Node.induction` is the matching way to prove things.
-/

namespace RepairCorpus

/-- An annotated syntax tree. -/
structure Node where
  /-- The tag of this node alone. -/
  own : Tag
  /-- The tag passed down from an enclosing construct. -/
  underlying : Tag
  form : Form Node
  deriving Inhabited

namespace Node

/-- The kind of a node's construct. -/
def kind (n : Node) : Kind := n.form.kind

/-- The parts of a node that are present, in source order. -/
def children (n : Node) : List Node := n.form.children

/-- A node without tags. -/
def untagged (form : Form Node) : Node := ⟨.unknown, .unknown, form⟩

/-- Replaces the construct and keeps the tags. -/
def withForm (n : Node) (form : Form Node) : Node := { n with form := form }

@[simp] theorem form_withForm (n : Node) (form : Form Node) : (n.withForm form).form = form := rfl

@[simp] theorem withForm_form (n : Node) : n.withForm n.form = n := by cases n; rfl

@[simp] theorem withForm_withForm (n : Node) (f g : Form Node) :
    (n.withForm f).withForm g = n.withForm g := rfl

@[simp] theorem children_withForm (n : Node) (form : Form Node) :
    (n.withForm form).children = form.children := rfl

@[simp] theorem own_withForm (n : Node) (form : Form Node) : (n.withForm form).own = n.own := rfl

/-! ## Recursion -/

section Fold

variable {β : Type} (step : Tag → Tag → Form (Node × β) → β)

mutual

/-- Computes bottom up: `step` gets the tags and the form of a node, with each part paired with
its result. -/
def fold : Node → β
  | ⟨own, underlying, form⟩ => step own underlying (foldForm form)

/-- Pairs every part of a form with its result. -/
def foldForm : Form Node → Form (Node × β)
  | .program body => .program (foldList body)
  | .blockStatement body => .blockStatement (foldList body)
  | .variableDeclaration kind declarations => .variableDeclaration kind (foldList declarations)
  | .variableDeclarator id init => .variableDeclarator (id, fold id) (foldOption init)
  | .functionDeclaration id params body =>
    .functionDeclaration (foldOption id) (foldList params) (body, fold body)
  | .functionExpression id params body =>
    .functionExpression (foldOption id) (foldList params) (body, fold body)
  | .expressionStatement expression => .expressionStatement (expression, fold expression)
  | .breakStatement label => .breakStatement (foldOption label)
  | .continueStatement label => .continueStatement (foldOption label)
  | .whileStatement test body => .whileStatement (test, fold test) (body, fold body)
  | .doWhileStatement body test => .doWhileStatement (body, fold body) (test, fold test)
  | .emptyStatement => .emptyStatement
  | .emptyExpression => .emptyExpression
  | .labeledStatement label body => .labeledStatement (label, fold label) (body, fold body)
  | .forStatement init test update body =>
    .forStatement (foldOption init) (foldOption test) (foldOption update) (body, fold body)
  | .forInStatement left right body =>
    .forInStatement (left, fold left) (right, fold right) (body, fold body)
  | .ifStatement test consequent alternate =>
    .ifStatement (test, fold test) (consequent, fold consequent) (foldOption alternate)
  | .debuggerStatement => .debuggerStatement
  | .returnStatement argument => .returnStatement (foldOption argument)
  | .switchStatement discriminant cases =>
    .switchStatement (discriminant, fold discriminant) (foldList cases)
  | .switchCase test consequent => .switchCase (foldOption test) (foldList consequent)
  | .throwStatement argument => .throwStatement (argument, fold argument)
  | .tryStatement block handler finalizer =>
    .tryStatement (block, fold block) (foldOption handler) (foldOption finalizer)
  | .catchClause param body => .catchClause (foldOption param) (body, fold body)
  | .withStatement object body => .withStatement (object, fold object) (body, fold body)
  | .identifier name => .identifier name
  | .literal value raw regex => .literal value raw regex
  | .xmlLiteral => .xmlLiteral
  | .arrayExpression elements => .arrayExpression (foldHoles elements)
  | .assignmentExpression operator left right =>
    .assignmentExpression operator (left, fold left) (right, fold right)
  | .conditionalExpression test consequent alternate =>
    .conditionalExpression (test, fold test) (consequent, fold consequent)
      (alternate, fold alternate)
  | .memberExpression object member computed =>
    .memberExpression (object, fold object) (member, fold member) computed
  | .callExpression callee arguments => .callExpression (callee, fold callee) (foldList arguments)
  | .newExpression callee arguments => .newExpression (callee, fold callee) (foldList arguments)
  | .binaryExpression operator left right =>
    .binaryExpression operator (left, fold left) (right, fold right)
  | .logicalExpression operator left right =>
    .logicalExpression operator (left, fold left) (right, fold right)
  | .thisExpression => .thisExpression
  | .objectExpression properties => .objectExpression (foldList properties)
  | .property key value computed kind method shorthand =>
    .property (key, fold key) (value, fold value) computed kind method shorthand
  | .unaryExpression operator argument isPrefix =>
    .unaryExpression operator (argument, fold argument) isPrefix
  | .updateExpression operator argument isPrefix =>
    .updateExpression operator (argument, fold argument) isPrefix
  | .yieldExpression argument delegate => .yieldExpression (foldOption argument) delegate
  | .placeholder name => .placeholder name
  | .other => .other

/-- Pairs an optional part with its result. -/
def foldOption : Option Node → Option (Node × β)
  | none => none
  | some n => some (n, fold n)

/-- Pairs listed parts with their results. -/
def foldList : List Node → List (Node × β)
  | [] => []
  | n :: ns => (n, fold n) :: foldList ns

/-- Pairs listed parts with their results and keeps the holes. -/
def foldHoles : List (Option Node) → List (Option (Node × β))
  | [] => []
  | n :: ns => foldOption n :: foldHoles ns

end

theorem foldOption_eq (o : Option Node) : foldOption step o = o.map fun n => (n, fold step n) := by
  cases o <;> simp [foldOption]

theorem foldList_eq (ns : List Node) : foldList step ns = ns.map fun n => (n, fold step n) := by
  induction ns with
  | nil => simp [foldList]
  | cons n ns ih => simp [foldList, ih]

theorem foldHoles_eq (ns : List (Option Node)) (start : Nat) :
    foldHoles step ns = Form.mapPresentIdx start (fun _ n => (n, fold step n)) ns := by
  induction ns generalizing start with
  | nil => simp [foldHoles, Form.mapPresentIdx]
  | cons n ns ih =>
    cases n with
    | none => simp [foldHoles, foldOption, Form.mapPresentIdx, ← ih]
    | some n => simp [foldHoles, foldOption, Form.mapPresentIdx, ← ih]

theorem foldForm_eq (form : Form Node) : foldForm step form = form.map fun n => (n, fold step n) := by
  cases form <;>
    simp [foldForm, Form.map, Form.mapIdx, Form.mapIdx_const, foldOption_eq, foldList_eq,
      foldHoles_eq _ _ 0]

/-- **The unfolding rule**: the result at a node is made from the results at its parts. -/
theorem fold_mk (own underlying : Tag) (form : Form Node) :
    fold step ⟨own, underlying, form⟩ = step own underlying (form.map fun n => (n, fold step n)) := by
  rw [fold, foldForm_eq]

end Fold

/-! ## Induction -/

/-- Parts are smaller than the form they are in. -/
theorem sizeOf_lt_of_mem_children {form : Form Node} {c : Node} (h : c ∈ form.children) :
    sizeOf c < sizeOf form := by
  have listed : ∀ ns : List Node, c ∈ ns → sizeOf c < sizeOf ns := fun _ => List.sizeOf_lt_of_mem
  have holes : ∀ ns : List (Option Node), c ∈ Form.present ns → sizeOf c < sizeOf ns := by
    intro ns hc
    induction ns with
    | nil => simp at hc
    | cons n ns ih =>
      cases n with
      | none => have := ih hc; simp; omega
      | some n =>
        rcases List.mem_cons.mp hc with rfl | hc
        · simp; omega
        · have := ih hc; simp; omega
  cases form <;> simp [Form.children] at h ⊢ <;> grind

/-- A property that holds of a node whenever it holds of its parts holds of every node. -/
theorem induction {motive : Node → Prop}
    (step : ∀ own underlying form, (∀ c ∈ form.children, motive c) → motive ⟨own, underlying, form⟩)
    (n : Node) : motive n :=
  match n with
  | ⟨own, underlying, form⟩ =>
    step own underlying form fun c h =>
      have : sizeOf c < sizeOf form := sizeOf_lt_of_mem_children h
      induction step c
termination_by sizeOf n
decreasing_by simp; omega

/-! ## Size -/

/-- The number of nodes of a tree. -/
def size : Node → Nat :=
  fold fun _ _ form => 1 + (form.children.map Prod.snd).foldr (· + ·) 0

theorem size_mk (own underlying : Tag) (form : Form Node) :
    size ⟨own, underlying, form⟩ = 1 + (form.children.map size).foldr (· + ·) 0 := by
  simp [size, fold_mk, Function.comp_def]

/-- Whether a tree is a program that consists of one function declaration. -/
def isSingleFunction (n : Node) : Bool :=
  match n.form with
  | .program [f] => f.kind == .functionDeclaration
  | _ => false

end Node

end RepairCorpus
