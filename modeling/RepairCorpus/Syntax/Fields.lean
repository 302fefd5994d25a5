import RepairCorpus.Syntax.Form

/-!
# Named fields

In a document a form is a set of named fields.  This module says for each kind which fields it
has, of what sort, and which of them may be left out; and it converts between forms and lists
of named fields, whatever their parts are.

* `Kind.fields`: the names and sorts of a kind's fields, in declaration order.
* `Form.toFields`: the fields of a form, complete and in declaration order.
* `Form.ofFields`: the form with given fields.  Fields that are left out get their default, or
  are reported: the first one missing in declaration order.
* `Form.ofFields_toFields`: reading undoes writing.
-/

namespace RepairCorpus

/-- The sorts of fields. -/
inductive FieldSort where
  | node
  | optionalNode
  | nodes
  | holes
  | text
  | flag
  | value
  | regex
  deriving DecidableEq, Inhabited

/-- The content of a field, with parts of type `α`. -/
inductive Field (α : Type) where
  | node (part : α)
  | optionalNode (part : Option α)
  | nodes (parts : List α)
  | holes (parts : List (Option α))
  | text (content : String)
  | flag (content : Bool)
  | value (content : LiteralValue)
  | regex (content : Option Regex)
  deriving Inhabited

/-- The sort of a field's content. -/
def Field.sort {α : Type} : Field α → FieldSort
  | .node _ => .node
  | .optionalNode _ => .optionalNode
  | .nodes _ => .nodes
  | .holes _ => .holes
  | .text _ => .text
  | .flag _ => .flag
  | .value _ => .value
  | .regex _ => .regex

/-- The fields of each kind, in declaration order. -/
def Kind.fields : Kind → List (String × FieldSort)
  | .program => [("body", .nodes)]
  | .blockStatement => [("body", .nodes)]
  | .variableDeclaration => [("kind", .text), ("declarations", .nodes)]
  | .variableDeclarator => [("id", .node), ("init", .optionalNode)]
  | .functionDeclaration => [("id", .optionalNode), ("params", .nodes), ("body", .node)]
  | .functionExpression => [("id", .optionalNode), ("params", .nodes), ("body", .node)]
  | .expressionStatement => [("expression", .node)]
  | .breakStatement => [("label", .optionalNode)]
  | .continueStatement => [("label", .optionalNode)]
  | .whileStatement => [("test", .node), ("body", .node)]
  | .doWhileStatement => [("body", .node), ("test", .node)]
  | .emptyStatement => []
  | .emptyExpression => []
  | .labeledStatement => [("label", .node), ("body", .node)]
  | .forStatement =>
    [("init", .optionalNode), ("test", .optionalNode), ("update", .optionalNode), ("body", .node)]
  | .forInStatement => [("left", .node), ("right", .node), ("body", .node)]
  | .ifStatement => [("test", .node), ("consequent", .node), ("alternate", .optionalNode)]
  | .debuggerStatement => []
  | .returnStatement => [("argument", .optionalNode)]
  | .switchStatement => [("discriminant", .node), ("cases", .nodes)]
  | .switchCase => [("test", .optionalNode), ("consequent", .nodes)]
  | .throwStatement => [("argument", .node)]
  | .tryStatement => [("block", .node), ("handler", .optionalNode), ("finalizer", .optionalNode)]
  | .catchClause => [("param", .optionalNode), ("body", .node)]
  | .withStatement => [("object", .node), ("body", .node)]
  | .identifier => [("name", .text)]
  | .literal => [("value", .value), ("raw", .text), ("regex", .regex)]
  | .xmlLiteral => []
  | .arrayExpression => [("elements", .holes)]
  | .assignmentExpression => [("operator", .text), ("left", .node), ("right", .node)]
  | .conditionalExpression => [("test", .node), ("consequent", .node), ("alternate", .node)]
  | .memberExpression => [("object", .node), ("property", .node), ("computed", .flag)]
  | .callExpression => [("callee", .node), ("arguments", .nodes)]
  | .newExpression => [("callee", .node), ("arguments", .nodes)]
  | .binaryExpression => [("operator", .text), ("left", .node), ("right", .node)]
  | .logicalExpression => [("operator", .text), ("left", .node), ("right", .node)]
  | .thisExpression => []
  | .objectExpression => [("properties", .nodes)]
  | .property =>
    [("key", .node), ("value", .node), ("computed", .flag), ("kind", .text), ("method", .flag),
      ("shorthand", .flag)]
  | .unaryExpression => [("operator", .text), ("argument", .node), ("prefix", .flag)]
  | .updateExpression => [("operator", .text), ("argument", .node), ("prefix", .flag)]
  | .yieldExpression => [("argument", .optionalNode), ("delegate", .flag)]
  | .placeholder => [("name", .text)]
  | .other => []

/-- The sort of a kind's field, if it has one of this name. -/
def Kind.fieldSort? (k : Kind) (name : String) : Option FieldSort := k.fields.lookup name

namespace Form

variable {α : Type}

/-! ## Writing -/

/-- The fields of a form. -/
def toFields : Form α → List (String × Field α)
  | .program body => [("body", .nodes body)]
  | .blockStatement body => [("body", .nodes body)]
  | .variableDeclaration kind declarations =>
    [("kind", .text kind), ("declarations", .nodes declarations)]
  | .variableDeclarator id init => [("id", .node id), ("init", .optionalNode init)]
  | .functionDeclaration id params body =>
    [("id", .optionalNode id), ("params", .nodes params), ("body", .node body)]
  | .functionExpression id params body =>
    [("id", .optionalNode id), ("params", .nodes params), ("body", .node body)]
  | .expressionStatement expression => [("expression", .node expression)]
  | .breakStatement label => [("label", .optionalNode label)]
  | .continueStatement label => [("label", .optionalNode label)]
  | .whileStatement test body => [("test", .node test), ("body", .node body)]
  | .doWhileStatement body test => [("body", .node body), ("test", .node test)]
  | .emptyStatement => []
  | .emptyExpression => []
  | .labeledStatement label body => [("label", .node label), ("body", .node body)]
  | .forStatement init test update body =>
    [("init", .optionalNode init), ("test", .optionalNode test), ("update", .optionalNode update),
      ("body", .node body)]
  | .forInStatement left right body =>
    [("left", .node left), ("right", .node right), ("body", .node body)]
  | .ifStatement test consequent alternate =>
    [("test", .node test), ("consequent", .node consequent),
      ("alternate", .optionalNode alternate)]
  | .debuggerStatement => []
  | .returnStatement argument => [("argument", .optionalNode argument)]
  | .switchStatement discriminant cases =>
    [("discriminant", .node discriminant), ("cases", .nodes cases)]
  | .switchCase test consequent =>
    [("test", .optionalNode test), ("consequent", .nodes consequent)]
  | .throwStatement argument => [("argument", .node argument)]
  | .tryStatement block handler finalizer =>
    [("block", .node block), ("handler", .optionalNode handler),
      ("finalizer", .optionalNode finalizer)]
  | .catchClause param body => [("param", .optionalNode param), ("body", .node body)]
  | .withStatement object body => [("object", .node object), ("body", .node body)]
  | .identifier name => [("name", .text name)]
  | .literal value raw regex =>
    [("value", .value value), ("raw", .text raw), ("regex", .regex regex)]
  | .xmlLiteral => []
  | .arrayExpression elements => [("elements", .holes elements)]
  | .assignmentExpression operator left right =>
    [("operator", .text operator), ("left", .node left), ("right", .node right)]
  | .conditionalExpression test consequent alternate =>
    [("test", .node test), ("consequent", .node consequent), ("alternate", .node alternate)]
  | .memberExpression object member computed =>
    [("object", .node object), ("property", .node member), ("computed", .flag computed)]
  | .callExpression callee arguments =>
    [("callee", .node callee), ("arguments", .nodes arguments)]
  | .newExpression callee arguments => [("callee", .node callee), ("arguments", .nodes arguments)]
  | .binaryExpression operator left right =>
    [("operator", .text operator), ("left", .node left), ("right", .node right)]
  | .logicalExpression operator left right =>
    [("operator", .text operator), ("left", .node left), ("right", .node right)]
  | .thisExpression => []
  | .objectExpression properties => [("properties", .nodes properties)]
  | .property key value computed kind method shorthand =>
    [("key", .node key), ("value", .node value), ("computed", .flag computed),
      ("kind", .text kind), ("method", .flag method), ("shorthand", .flag shorthand)]
  | .unaryExpression operator argument isPrefix =>
    [("operator", .text operator), ("argument", .node argument), ("prefix", .flag isPrefix)]
  | .updateExpression operator argument isPrefix =>
    [("operator", .text operator), ("argument", .node argument), ("prefix", .flag isPrefix)]
  | .yieldExpression argument delegate =>
    [("argument", .optionalNode argument), ("delegate", .flag delegate)]
  | .placeholder name => [("name", .text name)]
  | .other => []

/-- The fields of a form have the names and sorts of its kind. -/
theorem toFields_sorts (form : Form α) :
    (form.toFields.map fun f => (f.1, f.2.sort)) = form.kind.fields := by
  cases form <;> rfl

/-! ## Reading

Each reader looks one field up.  A field of the wrong sort counts as left out; fields read for the
kind never have one. -/

section Readers

variable (fields : List (String × Field α)) (name : String)

/-- A part that must be there; its name is the error otherwise. -/
def readNode : Except String α :=
  match fields.lookup name with
  | some (.node x) => .ok x
  | _ => .error name

/-- A part that may be absent. -/
def readOptional : Except String (Option α) :=
  match fields.lookup name with
  | some (.optionalNode x) => .ok x
  | _ => .ok none

/-- A list of parts that must be there. -/
def readNodes : Except String (List α) :=
  match fields.lookup name with
  | some (.nodes xs) => .ok xs
  | _ => .error name

/-- A list of parts that is empty when left out. -/
def readNodesOrNone : Except String (List α) :=
  match fields.lookup name with
  | some (.nodes xs) => .ok xs
  | _ => .ok []

/-- A list of parts with holes, which must be there. -/
def readHoles : Except String (List (Option α)) :=
  match fields.lookup name with
  | some (.holes xs) => .ok xs
  | _ => .error name

/-- A text that must be there. -/
def readText : Except String String :=
  match fields.lookup name with
  | some (.text s) => .ok s
  | _ => .error name

/-- A text with a default. -/
def readTextOr (other : String) : Except String String :=
  match fields.lookup name with
  | some (.text s) => .ok s
  | _ => .ok other

/-- A flag with a default. -/
def readFlagOr (other : Bool) : Except String Bool :=
  match fields.lookup name with
  | some (.flag b) => .ok b
  | _ => .ok other

/-- A literal's value, null when left out. -/
def readValue : Except String LiteralValue :=
  match fields.lookup name with
  | some (.value v) => .ok v
  | _ => .ok .null

/-- The parts of a regular expression, which may be absent. -/
def readRegex : Except String (Option Regex) :=
  match fields.lookup name with
  | some (.regex r) => .ok r
  | _ => .ok none

end Readers

/-- The form of a kind with given fields; the error names a missing field. -/
def ofFields (kind : Kind) (fields : List (String × Field α)) : Except String (Form α) := do
  match kind with
  | .program => return .program (← readNodes fields "body")
  | .blockStatement => return .blockStatement (← readNodes fields "body")
  | .variableDeclaration =>
    return .variableDeclaration (← readText fields "kind") (← readNodes fields "declarations")
  | .variableDeclarator =>
    return .variableDeclarator (← readNode fields "id") (← readOptional fields "init")
  | .functionDeclaration =>
    return .functionDeclaration (← readOptional fields "id") (← readNodes fields "params")
      (← readNode fields "body")
  | .functionExpression =>
    return .functionExpression (← readOptional fields "id") (← readNodes fields "params")
      (← readNode fields "body")
  | .expressionStatement => return .expressionStatement (← readNode fields "expression")
  | .breakStatement => return .breakStatement (← readOptional fields "label")
  | .continueStatement => return .continueStatement (← readOptional fields "label")
  | .whileStatement =>
    return .whileStatement (← readNode fields "test") (← readNode fields "body")
  | .doWhileStatement =>
    return .doWhileStatement (← readNode fields "body") (← readNode fields "test")
  | .emptyStatement => return .emptyStatement
  | .emptyExpression => return .emptyExpression
  | .labeledStatement =>
    return .labeledStatement (← readNode fields "label") (← readNode fields "body")
  | .forStatement =>
    return .forStatement (← readOptional fields "init") (← readOptional fields "test")
      (← readOptional fields "update") (← readNode fields "body")
  | .forInStatement =>
    return .forInStatement (← readNode fields "left") (← readNode fields "right")
      (← readNode fields "body")
  | .ifStatement =>
    return .ifStatement (← readNode fields "test") (← readNode fields "consequent")
      (← readOptional fields "alternate")
  | .debuggerStatement => return .debuggerStatement
  | .returnStatement => return .returnStatement (← readOptional fields "argument")
  | .switchStatement =>
    return .switchStatement (← readNode fields "discriminant") (← readNodes fields "cases")
  | .switchCase =>
    return .switchCase (← readOptional fields "test") (← readNodes fields "consequent")
  | .throwStatement => return .throwStatement (← readNode fields "argument")
  | .tryStatement =>
    return .tryStatement (← readNode fields "block") (← readOptional fields "handler")
      (← readOptional fields "finalizer")
  | .catchClause => return .catchClause (← readOptional fields "param") (← readNode fields "body")
  | .withStatement =>
    return .withStatement (← readNode fields "object") (← readNode fields "body")
  | .identifier => return .identifier (← readText fields "name")
  | .literal =>
    return .literal (← readValue fields "value") (← readText fields "raw")
      (← readRegex fields "regex")
  | .xmlLiteral => return .xmlLiteral
  | .arrayExpression => return .arrayExpression (← readHoles fields "elements")
  | .assignmentExpression =>
    return .assignmentExpression (← readText fields "operator") (← readNode fields "left")
      (← readNode fields "right")
  | .conditionalExpression =>
    return .conditionalExpression (← readNode fields "test") (← readNode fields "consequent")
      (← readNode fields "alternate")
  | .memberExpression =>
    return .memberExpression (← readNode fields "object") (← readNode fields "property")
      (← readFlagOr fields "computed" false)
  | .callExpression =>
    return .callExpression (← readNode fields "callee") (← readNodes fields "arguments")
  | .newExpression =>
    return .newExpression (← readNode fields "callee") (← readNodesOrNone fields "arguments")
  | .binaryExpression =>
    return .binaryExpression (← readText fields "operator") (← readNode fields "left")
      (← readNode fields "right")
  | .logicalExpression =>
    return .logicalExpression (← readText fields "operator") (← readNode fields "left")
      (← readNode fields "right")
  | .thisExpression => return .thisExpression
  | .objectExpression => return .objectExpression (← readNodes fields "properties")
  | .property =>
    return .property (← readNode fields "key") (← readNode fields "value")
      (← readFlagOr fields "computed" false) (← readTextOr fields "kind" "init")
      (← readFlagOr fields "method" false) (← readFlagOr fields "shorthand" false)
  | .unaryExpression =>
    return .unaryExpression (← readText fields "operator") (← readNode fields "argument")
      (← readFlagOr fields "prefix" true)
  | .updateExpression =>
    return .updateExpression (← readText fields "operator") (← readNode fields "argument")
      (← readFlagOr fields "prefix" false)
  | .yieldExpression =>
    return .yieldExpression (← readOptional fields "argument")
      (← readFlagOr fields "delegate" false)
  | .placeholder => return .placeholder (← readText fields "name")
  | .other => return .other

/-- **Reading undoes writing.** -/
theorem ofFields_toFields (form : Form α) : ofFields form.kind form.toFields = .ok form := by
  cases form <;> rfl

end Form

end RepairCorpus
