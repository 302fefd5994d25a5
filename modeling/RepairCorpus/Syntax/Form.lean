import RepairCorpus.Syntax.Kind
import RepairCorpus.Syntax.Literal

/-!
# Forms

A `Form α` is one construct with its parts in place, where a part is whatever `α` says: a subtree,
a subtree with something computed from it, or a list of tokens.  A node is a form whose parts are
nodes, together with two tags.

Keeping the form apart from the recursion gives every traversal the same shape.  What a pass does
at one construct is a function on forms; how it goes through a tree is said once, in
`RepairCorpus.Syntax.Node`.

Parts are required, optional, listed, or, for the elements of an array literal, listed with holes.
Whatever the shape, `children` enumerates the parts that are present in source order, and
`mapIdx` changes them in place, each with its number in that enumeration.  The laws between the
two say that they see the same parts:

* `children_mapIdx`: changing in place changes the enumeration;
* `kind_mapIdx`: the construct itself stays;
* `mapIdx_mapIdx`, `mapIdx_eq_self`: changing is functorial;
* `mapIdx_congr`: only the parts that are present matter.

`setChild` puts one part in the place of another: `children_setChild`, `setChild_eq_self` and
`setChild_setChild` are the laws of a lens.
-/

namespace RepairCorpus

/-- One construct, with parts of type `α`. -/
inductive Form (α : Type) where
  | program (body : List α)
  | blockStatement (body : List α)
  | variableDeclaration (kind : String) (declarations : List α)
  | variableDeclarator (id : α) (init : Option α)
  | functionDeclaration (id : Option α) (params : List α) (body : α)
  | functionExpression (id : Option α) (params : List α) (body : α)
  | expressionStatement (expression : α)
  | breakStatement (label : Option α)
  | continueStatement (label : Option α)
  | whileStatement (test : α) (body : α)
  | doWhileStatement (body : α) (test : α)
  | emptyStatement
  | emptyExpression
  | labeledStatement (label : α) (body : α)
  | forStatement (init : Option α) (test : Option α) (update : Option α) (body : α)
  | forInStatement (left : α) (right : α) (body : α)
  | ifStatement (test : α) (consequent : α) (alternate : Option α)
  | debuggerStatement
  | returnStatement (argument : Option α)
  | switchStatement (discriminant : α) (cases : List α)
  | switchCase (test : Option α) (consequent : List α)
  | throwStatement (argument : α)
  | tryStatement (block : α) (handler : Option α) (finalizer : Option α)
  | catchClause (param : Option α) (body : α)
  | withStatement (object : α) (body : α)
  | identifier (name : String)
  | literal (value : LiteralValue) (raw : String) (regex : Option Regex)
  | xmlLiteral
  | arrayExpression (elements : List (Option α))
  | assignmentExpression (operator : String) (left : α) (right : α)
  | conditionalExpression (test : α) (consequent : α) (alternate : α)
  | memberExpression (object : α) (member : α) (computed : Bool)
  | callExpression (callee : α) (arguments : List α)
  | newExpression (callee : α) (arguments : List α)
  | binaryExpression (operator : String) (left : α) (right : α)
  | logicalExpression (operator : String) (left : α) (right : α)
  | thisExpression
  | objectExpression (properties : List α)
  | property (key : α) (value : α) (computed : Bool) (kind : String) (method : Bool) (shorthand : Bool)
  | unaryExpression (operator : String) (argument : α) (isPrefix : Bool)
  | updateExpression (operator : String) (argument : α) (isPrefix : Bool)
  | yieldExpression (argument : Option α) (delegate : Bool)
  | placeholder (name : String)
  | other
  deriving DecidableEq, Inhabited

namespace Form

variable {α β γ : Type}

/-- The kind of a construct. -/
def kind : Form α → Kind
  | .program .. => .program
  | .blockStatement .. => .blockStatement
  | .variableDeclaration .. => .variableDeclaration
  | .variableDeclarator .. => .variableDeclarator
  | .functionDeclaration .. => .functionDeclaration
  | .functionExpression .. => .functionExpression
  | .expressionStatement .. => .expressionStatement
  | .breakStatement .. => .breakStatement
  | .continueStatement .. => .continueStatement
  | .whileStatement .. => .whileStatement
  | .doWhileStatement .. => .doWhileStatement
  | .emptyStatement => .emptyStatement
  | .emptyExpression => .emptyExpression
  | .labeledStatement .. => .labeledStatement
  | .forStatement .. => .forStatement
  | .forInStatement .. => .forInStatement
  | .ifStatement .. => .ifStatement
  | .debuggerStatement => .debuggerStatement
  | .returnStatement .. => .returnStatement
  | .switchStatement .. => .switchStatement
  | .switchCase .. => .switchCase
  | .throwStatement .. => .throwStatement
  | .tryStatement .. => .tryStatement
  | .catchClause .. => .catchClause
  | .withStatement .. => .withStatement
  | .identifier .. => .identifier
  | .literal .. => .literal
  | .xmlLiteral => .xmlLiteral
  | .arrayExpression .. => .arrayExpression
  | .assignmentExpression .. => .assignmentExpression
  | .conditionalExpression .. => .conditionalExpression
  | .memberExpression .. => .memberExpression
  | .callExpression .. => .callExpression
  | .newExpression .. => .newExpression
  | .binaryExpression .. => .binaryExpression
  | .logicalExpression .. => .logicalExpression
  | .thisExpression => .thisExpression
  | .objectExpression .. => .objectExpression
  | .property .. => .property
  | .unaryExpression .. => .unaryExpression
  | .updateExpression .. => .updateExpression
  | .yieldExpression .. => .yieldExpression
  | .placeholder .. => .placeholder
  | .other => .other

/-! ## Parts -/

/-- The elements that are present in a list with holes. -/
def present : List (Option α) → List α
  | [] => []
  | none :: xs => present xs
  | some x :: xs => x :: present xs

@[simp] theorem present_nil : present ([] : List (Option α)) = [] := rfl

@[simp] theorem present_none_cons (xs : List (Option α)) : present (none :: xs) = present xs := rfl

@[simp] theorem present_some_cons (x : α) (xs : List (Option α)) :
    present (some x :: xs) = x :: present xs := rfl

/-- The parts that are present, in source order. -/
def children : Form α → List α
  | .program body => body
  | .blockStatement body => body
  | .variableDeclaration _ declarations => declarations
  | .variableDeclarator id init => [id] ++ init.toList
  | .functionDeclaration id params body => id.toList ++ params ++ [body]
  | .functionExpression id params body => id.toList ++ params ++ [body]
  | .expressionStatement expression => [expression]
  | .breakStatement label => label.toList
  | .continueStatement label => label.toList
  | .whileStatement test body => [test, body]
  | .doWhileStatement body test => [body, test]
  | .emptyStatement => []
  | .emptyExpression => []
  | .labeledStatement label body => [label, body]
  | .forStatement init test update body => init.toList ++ test.toList ++ update.toList ++ [body]
  | .forInStatement left right body => [left, right, body]
  | .ifStatement test consequent alternate => [test, consequent] ++ alternate.toList
  | .debuggerStatement => []
  | .returnStatement argument => argument.toList
  | .switchStatement discriminant cases => [discriminant] ++ cases
  | .switchCase test consequent => test.toList ++ consequent
  | .throwStatement argument => [argument]
  | .tryStatement block handler finalizer => [block] ++ handler.toList ++ finalizer.toList
  | .catchClause param body => param.toList ++ [body]
  | .withStatement object body => [object, body]
  | .identifier _ => []
  | .literal _ _ _ => []
  | .xmlLiteral => []
  | .arrayExpression elements => present elements
  | .assignmentExpression _ left right => [left, right]
  | .conditionalExpression test consequent alternate => [test, consequent, alternate]
  | .memberExpression object member _ => [object, member]
  | .callExpression callee arguments => [callee] ++ arguments
  | .newExpression callee arguments => [callee] ++ arguments
  | .binaryExpression _ left right => [left, right]
  | .logicalExpression _ left right => [left, right]
  | .thisExpression => []
  | .objectExpression properties => properties
  | .property key value _ _ _ _ => [key, value]
  | .unaryExpression _ argument _ => [argument]
  | .updateExpression _ argument _ => [argument]
  | .yieldExpression argument _ => argument.toList
  | .placeholder _ => []
  | .other => []

/-- Changes the elements present in a list with holes, counting from `start`. -/
def mapPresentIdx (start : Nat) (f : Nat → α → β) : List (Option α) → List (Option β)
  | [] => []
  | none :: xs => none :: mapPresentIdx start f xs
  | some x :: xs => some (f start x) :: mapPresentIdx (start + 1) f xs

/-- Changes every part in place; `f` is given the part's number among the children. -/
def mapIdx (f : Nat → α → β) : Form α → Form β
  | .program body => .program (body.mapIdx f)
  | .blockStatement body => .blockStatement (body.mapIdx f)
  | .variableDeclaration kind declarations => .variableDeclaration kind (declarations.mapIdx f)
  | .variableDeclarator id init => .variableDeclarator (f 0 id) (init.map (f 1))
  | .functionDeclaration id params body =>
    .functionDeclaration (id.map (f 0)) (params.mapIdx fun i => f (id.toList.length + i))
      (f (id.toList.length + params.length) body)
  | .functionExpression id params body =>
    .functionExpression (id.map (f 0)) (params.mapIdx fun i => f (id.toList.length + i))
      (f (id.toList.length + params.length) body)
  | .expressionStatement expression => .expressionStatement (f 0 expression)
  | .breakStatement label => .breakStatement (label.map (f 0))
  | .continueStatement label => .continueStatement (label.map (f 0))
  | .whileStatement test body => .whileStatement (f 0 test) (f 1 body)
  | .doWhileStatement body test => .doWhileStatement (f 0 body) (f 1 test)
  | .emptyStatement => .emptyStatement
  | .emptyExpression => .emptyExpression
  | .labeledStatement label body => .labeledStatement (f 0 label) (f 1 body)
  | .forStatement init test update body =>
    .forStatement (init.map (f 0)) (test.map (f init.toList.length))
      (update.map (f (init.toList.length + test.toList.length)))
      (f (init.toList.length + test.toList.length + update.toList.length) body)
  | .forInStatement left right body => .forInStatement (f 0 left) (f 1 right) (f 2 body)
  | .ifStatement test consequent alternate =>
    .ifStatement (f 0 test) (f 1 consequent) (alternate.map (f 2))
  | .debuggerStatement => .debuggerStatement
  | .returnStatement argument => .returnStatement (argument.map (f 0))
  | .switchStatement discriminant cases =>
    .switchStatement (f 0 discriminant) (cases.mapIdx fun i => f (1 + i))
  | .switchCase test consequent =>
    .switchCase (test.map (f 0)) (consequent.mapIdx fun i => f (test.toList.length + i))
  | .throwStatement argument => .throwStatement (f 0 argument)
  | .tryStatement block handler finalizer =>
    .tryStatement (f 0 block) (handler.map (f 1)) (finalizer.map (f (1 + handler.toList.length)))
  | .catchClause param body => .catchClause (param.map (f 0)) (f param.toList.length body)
  | .withStatement object body => .withStatement (f 0 object) (f 1 body)
  | .identifier name => .identifier name
  | .literal value raw regex => .literal value raw regex
  | .xmlLiteral => .xmlLiteral
  | .arrayExpression elements => .arrayExpression (mapPresentIdx 0 f elements)
  | .assignmentExpression operator left right =>
    .assignmentExpression operator (f 0 left) (f 1 right)
  | .conditionalExpression test consequent alternate =>
    .conditionalExpression (f 0 test) (f 1 consequent) (f 2 alternate)
  | .memberExpression object member computed =>
    .memberExpression (f 0 object) (f 1 member) computed
  | .callExpression callee arguments =>
    .callExpression (f 0 callee) (arguments.mapIdx fun i => f (1 + i))
  | .newExpression callee arguments =>
    .newExpression (f 0 callee) (arguments.mapIdx fun i => f (1 + i))
  | .binaryExpression operator left right => .binaryExpression operator (f 0 left) (f 1 right)
  | .logicalExpression operator left right => .logicalExpression operator (f 0 left) (f 1 right)
  | .thisExpression => .thisExpression
  | .objectExpression properties => .objectExpression (properties.mapIdx f)
  | .property key value computed kind method shorthand =>
    .property (f 0 key) (f 1 value) computed kind method shorthand
  | .unaryExpression operator argument isPrefix =>
    .unaryExpression operator (f 0 argument) isPrefix
  | .updateExpression operator argument isPrefix =>
    .updateExpression operator (f 0 argument) isPrefix
  | .yieldExpression argument delegate => .yieldExpression (argument.map (f 0)) delegate
  | .placeholder name => .placeholder name
  | .other => .other

/-- Changes every part in place. -/
def map (f : α → β) (form : Form α) : Form β := form.mapIdx fun _ => f

/-- Puts a part in the place of the child with a number. -/
def setChild (i : Nat) (x : α) (form : Form α) : Form α :=
  form.mapIdx fun j y => if j = i then x else y

/-! ## Laws -/

theorem toList_map_mapIdx (f : Nat → α → β) (o : Option α) (start : Nat) :
    (o.map (f start)).toList = o.toList.mapIdx fun i => f (start + i) := by
  cases o <;> simp

theorem present_mapPresentIdx (f : Nat → α → β) (xs : List (Option α)) (start : Nat) :
    present (mapPresentIdx start f xs) = (present xs).mapIdx fun i => f (start + i) := by
  induction xs generalizing start with
  | nil => rfl
  | cons x xs ih =>
    cases x with
    | none => simp [mapPresentIdx, ih]
    | some x => simp [mapPresentIdx, ih, Nat.add_comm, Nat.add_left_comm]

theorem mapPresentIdx_mapPresentIdx (f : Nat → α → β) (g : Nat → β → γ) (xs : List (Option α))
    (start : Nat) :
    mapPresentIdx start g (mapPresentIdx start f xs)
      = mapPresentIdx start (fun i x => g i (f i x)) xs := by
  induction xs generalizing start with
  | nil => rfl
  | cons x xs ih => cases x <;> simp [mapPresentIdx, ih]

theorem mapPresentIdx_eq_self {f : Nat → α → α} (xs : List (Option α)) (start : Nat)
    (h : ∀ i x, f i x = x) : mapPresentIdx start f xs = xs := by
  induction xs generalizing start with
  | nil => rfl
  | cons x xs ih => cases x <;> simp [mapPresentIdx, ih, h]

theorem length_toList_map (f : α → β) (o : Option α) :
    (o.map f).toList.length = o.toList.length := by
  cases o <;> rfl

theorem mapIdx_const (f : α → β) (xs : List α) : (xs.mapIdx fun _ => f) = xs.map f :=
  List.ext_getElem? fun i => by simp

theorem mapPresentIdx_const (f : α → β) (xs : List (Option α)) (start : Nat) :
    mapPresentIdx start (fun _ => f) xs = xs.map (Option.map f) := by
  induction xs generalizing start with
  | nil => rfl
  | cons x xs ih => cases x <;> rw [mapPresentIdx, ih] <;> rfl

/-- **Changing in place changes the enumeration.** -/
theorem children_mapIdx (f : Nat → α → β) (form : Form α) :
    (form.mapIdx f).children = form.children.mapIdx f := by
  cases form <;>
    simp [mapIdx, children, List.mapIdx_append, present_mapPresentIdx, toList_map_mapIdx,
      Nat.add_comm, Nat.add_left_comm, Nat.add_assoc]

@[simp] theorem kind_mapIdx (f : Nat → α → β) (form : Form α) : (form.mapIdx f).kind = form.kind := by
  cases form <;> rfl

/-- Two changes in a row are one. -/
theorem mapIdx_mapIdx (f : Nat → α → β) (g : Nat → β → γ) (form : Form α) :
    (form.mapIdx f).mapIdx g = form.mapIdx fun i x => g i (f i x) := by
  cases form <;>
    simp [mapIdx, mapPresentIdx_mapPresentIdx, length_toList_map, Function.comp_def]

/-- Putting every part in its own place changes nothing. -/
theorem mapIdx_eq_self {f : Nat → α → α} (h : ∀ i x, f i x = x) (form : Form α) :
    form.mapIdx f = form := by
  have hf : f = fun _ => id := funext fun i => funext (h i)
  subst hf
  cases form <;> simp [mapIdx, mapPresentIdx_eq_self _ _ h, mapIdx_const]

@[simp] theorem kind_map (f : α → β) (form : Form α) : (form.map f).kind = form.kind := by
  simp [map]

@[simp] theorem children_map (f : α → β) (form : Form α) :
    (form.map f).children = form.children.map f := by
  simp [map, children_mapIdx, mapIdx_const]

@[simp] theorem map_map (f : α → β) (g : β → γ) (form : Form α) :
    (form.map f).map g = form.map (g ∘ f) := by
  simp [map, mapIdx_mapIdx, Function.comp_def]

@[simp] theorem map_id (form : Form α) : form.map id = form :=
  mapIdx_eq_self (fun _ _ => rfl) form

theorem optionMap_congr {f g : α → β} {o : Option α} (h : ∀ x ∈ o.toList, f x = g x) :
    o.map f = o.map g := by
  cases o with
  | none => rfl
  | some x => simpa using h

theorem mapPresentIdx_congr {f g : α → β} {xs : List (Option α)} {start : Nat}
    (h : ∀ x ∈ present xs, f x = g x) :
    mapPresentIdx start (fun _ => f) xs = mapPresentIdx start (fun _ => g) xs := by
  induction xs generalizing start with
  | nil => rfl
  | cons x xs ih => cases x <;> simp_all [mapPresentIdx]

/-- Two changes that agree on the parts that are present agree on the form. -/
theorem map_congr {f g : α → β} {form : Form α} (h : ∀ x ∈ form.children, f x = g x) :
    form.map f = form.map g := by
  have options : ∀ o : Option α, (∀ x ∈ o.toList, f x = g x) → o.map f = o.map g :=
    fun _ => optionMap_congr
  have lists : ∀ xs : List α, (∀ x ∈ xs, f x = g x) → xs.map f = xs.map g :=
    fun _ => List.map_congr_left
  have holes : ∀ xs : List (Option α), (∀ x ∈ present xs, f x = g x) →
      mapPresentIdx 0 (fun _ => f) xs = mapPresentIdx 0 (fun _ => g) xs :=
    fun _ => mapPresentIdx_congr
  cases form <;> simp only [map, mapIdx, mapIdx_const, children] at h ⊢ <;> grind

/-- The same with the numbers of the parts. -/
theorem mapIdx_congr {f g : Nat → α → β} {form : Form α}
    (h : ∀ i x, form.children[i]? = some x → f i x = g i x) : form.mapIdx f = form.mapIdx g := by
  have numbered : ∀ k : Nat → α → β,
      form.mapIdx k = (form.mapIdx Prod.mk).map fun p => k p.1 p.2 := fun k => by
    simp [map, mapIdx_mapIdx]
  rw [numbered f, numbered g]
  refine map_congr fun p hp => ?_
  obtain ⟨i, hi⟩ := List.getElem?_of_mem hp
  rw [children_mapIdx, List.getElem?_mapIdx] at hi
  obtain ⟨x, hx, rfl⟩ := Option.map_eq_some_iff.mp hi
  exact h i x hx

/-- Putting a part back where it was changes nothing. -/
theorem setChild_eq_self {i : Nat} {x : α} {form : Form α} (h : form.children[i]? = some x) :
    form.setChild i x = form := by
  rw [setChild, @mapIdx_congr _ _ _ (fun _ y => y), mapIdx_eq_self fun _ _ => rfl]
  intro j y hy
  split
  · next e => simpa [e, h] using hy
  · rfl

@[simp] theorem setChild_setChild (i : Nat) (x y : α) (form : Form α) :
    (form.setChild i x).setChild i y = form.setChild i y := by
  simp only [setChild, mapIdx_mapIdx]
  congr 1
  funext j z
  split <;> simp_all

@[simp] theorem kind_setChild (i : Nat) (x : α) (form : Form α) :
    (form.setChild i x).kind = form.kind := by
  simp [setChild]

/-- Replacing a part changes the enumeration at its number and nowhere else. -/
theorem children_setChild (i : Nat) (x : α) (form : Form α) :
    (form.setChild i x).children = form.children.set i x := by
  apply List.ext_getElem?
  intro j
  rcases Nat.lt_or_ge j form.children.length with hj | hj
  · by_cases h : j = i
    · subst h
      simp [setChild, children_mapIdx, hj]
    · simp [setChild, children_mapIdx, List.getElem?_set_ne (Ne.symm h), h]
  · simp [setChild, children_mapIdx, hj]

end Form

end RepairCorpus
