/-!
# Kinds of nodes

The closed list of constructs the library tells apart, under the names of the ESTree interchange
format.  Everything else a parser may produce is of the kind `other`: such a node can be read and
carried along, but it has no tokens.  A `placeholder` never comes from a parser; abstraction puts
it where a construct has been hidden.

The order of the list is part of the format, since a kind may also be given by its position.
-/

namespace RepairCorpus

/-- The kind of a node. -/
inductive Kind where
  | program
  | blockStatement
  | variableDeclaration
  | variableDeclarator
  | functionDeclaration
  | functionExpression
  | expressionStatement
  | breakStatement
  | continueStatement
  | whileStatement
  | doWhileStatement
  | emptyStatement
  | emptyExpression
  | labeledStatement
  | forStatement
  | forInStatement
  | ifStatement
  | debuggerStatement
  | returnStatement
  | switchStatement
  | switchCase
  | throwStatement
  | tryStatement
  | catchClause
  | withStatement
  | identifier
  | literal
  | xmlLiteral
  | arrayExpression
  | assignmentExpression
  | conditionalExpression
  | memberExpression
  | callExpression
  | newExpression
  | binaryExpression
  | logicalExpression
  | thisExpression
  | objectExpression
  | property
  | unaryExpression
  | updateExpression
  | yieldExpression
  | placeholder
  | other
  deriving DecidableEq, Inhabited, Repr

namespace Kind

/-- The kinds in order of position. -/
def all : List Kind :=
  [.program, .blockStatement, .variableDeclaration, .variableDeclarator, .functionDeclaration,
    .functionExpression, .expressionStatement, .breakStatement, .continueStatement,
    .whileStatement, .doWhileStatement, .emptyStatement, .emptyExpression, .labeledStatement,
    .forStatement, .forInStatement, .ifStatement, .debuggerStatement, .returnStatement,
    .switchStatement, .switchCase, .throwStatement, .tryStatement, .catchClause, .withStatement,
    .identifier, .literal, .xmlLiteral, .arrayExpression, .assignmentExpression,
    .conditionalExpression, .memberExpression, .callExpression, .newExpression, .binaryExpression,
    .logicalExpression, .thisExpression, .objectExpression, .property, .unaryExpression,
    .updateExpression, .yieldExpression, .placeholder, .other]

/-- The written form of a kind. -/
def name : Kind → String
  | .program => "Program"
  | .blockStatement => "BlockStatement"
  | .variableDeclaration => "VariableDeclaration"
  | .variableDeclarator => "VariableDeclarator"
  | .functionDeclaration => "FunctionDeclaration"
  | .functionExpression => "FunctionExpression"
  | .expressionStatement => "ExpressionStatement"
  | .breakStatement => "BreakStatement"
  | .continueStatement => "ContinueStatement"
  | .whileStatement => "WhileStatement"
  | .doWhileStatement => "DoWhileStatement"
  | .emptyStatement => "EmptyStatement"
  | .emptyExpression => "EmptyExpression"
  | .labeledStatement => "LabeledStatement"
  | .forStatement => "ForStatement"
  | .forInStatement => "ForInStatement"
  | .ifStatement => "IfStatement"
  | .debuggerStatement => "DebuggerStatement"
  | .returnStatement => "ReturnStatement"
  | .switchStatement => "SwitchStatement"
  | .switchCase => "SwitchCase"
  | .throwStatement => "ThrowStatement"
  | .tryStatement => "TryStatement"
  | .catchClause => "CatchClause"
  | .withStatement => "WithStatement"
  | .identifier => "Identifier"
  | .literal => "Literal"
  | .xmlLiteral => "XmlLiteral"
  | .arrayExpression => "ArrayExpression"
  | .assignmentExpression => "AssignmentExpression"
  | .conditionalExpression => "ConditionalExpression"
  | .memberExpression => "MemberExpression"
  | .callExpression => "CallExpression"
  | .newExpression => "NewExpression"
  | .binaryExpression => "BinaryExpression"
  | .logicalExpression => "LogicalExpression"
  | .thisExpression => "ThisExpression"
  | .objectExpression => "ObjectExpression"
  | .property => "Property"
  | .unaryExpression => "UnaryExpression"
  | .updateExpression => "UpdateExpression"
  | .yieldExpression => "YieldExpression"
  | .placeholder => "Placeholder"
  | .other => "Other"

/-- The kind with a written form. -/
def ofName? (s : String) : Option Kind := all.find? fun k => k.name == s

/-- The kind a written form stands for in a tree, where every unknown form stands for a construct
without tokens. -/
def ofName (s : String) : Kind := (ofName? s).getD .other

/-- The kind at a position of the list; positions behind its end stand for `other` as well. -/
def ofIndex (n : Nat) : Kind := all.getD n .other

theorem mem_all (k : Kind) : k ∈ all := by cases k <;> decide

theorem nodup_all : all.Nodup := by decide

@[simp] theorem ofName?_name (k : Kind) : ofName? k.name = some k := by cases k <;> decide

@[simp] theorem ofName_name (k : Kind) : ofName k.name = k := by simp [ofName]

/-- Different kinds have different written forms. -/
theorem name_injective {j k : Kind} (h : j.name = k.name) : j = k := by
  simpa using congrArg ofName? h

/-- Blocks and object literals are the constructs whose parts lie one level deeper. -/
def increasesDepth : Kind → Bool
  | .blockStatement | .objectExpression => true
  | _ => false

end Kind

end RepairCorpus
