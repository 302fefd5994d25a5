import RepairCorpus.Error
import RepairCorpus.Syntax.Form

/-!
# Productions

The grammar of token sequences, as a table.  For each construct and each of the two positions the
table lists the pieces the construct is written with: fixed tokens, and its parts, each with the
position it is written in.  A construct without an entry is refused there, and two constructs are
refused when they lack parts: a try statement with neither handler nor finalizer, and a variable
declaration without declarators.

Since the table says nothing about what parts are, `children_production` can state once and for
all that every construct writes each of its parts exactly once and in source order.
-/

namespace RepairCorpus

/-- One word of a sequence. -/
abbrev Token := String

/-- A piece of a production: a token, or a part in a position. -/
inductive Piece (α : Type) where
  | token (t : Token)
  | part (position : Position) (x : α)
  deriving DecidableEq

namespace Piece

variable {α β : Type}

/-- Changes the part of a piece. -/
def map (f : α → β) : Piece α → Piece β
  | .token t => .token t
  | .part position x => .part position (f x)

/-- The part of a piece, if it has one. -/
def part? : Piece α → Option α
  | .token _ => none
  | .part _ x => some x

/-- A part written as a statement. -/
def statement (x : α) : Piece α := .part .statement x

/-- A part written as an expression. -/
def expression (x : α) : Piece α := .part .expression x

/-- Fixed tokens. -/
def tokens (ts : List Token) : List (Piece α) := ts.map .token

/-- Parts written as statements, one after the other. -/
def statements (xs : List α) : List (Piece α) := xs.map .statement

/-- An optional part written as an expression behind some tokens, which are left out with it. -/
def optional (before : List Token) (x : Option α) : List (Piece α) :=
  match x with
  | some x => tokens before ++ [expression x]
  | none => []

/-- Lists of pieces with commas between them. -/
def commaJoined : List (List (Piece α)) → List (Piece α)
  | [] => []
  | [ps] => ps
  | ps :: pss => ps ++ .token "," :: commaJoined pss

/-- Parts written as expressions with commas between them. -/
def commaSeparated (xs : List α) : List (Piece α) :=
  commaJoined (xs.map fun x => [expression x])

end Piece

namespace Form

open Piece

variable {α : Type}

/-- The pieces of a function: the word, an optional name, parameters and body. -/
def functionPieces (id : Option α) (params : List α) (body : α) : List (Piece α) :=
  tokens ["function"] ++ optional [] id ++ tokens ["("] ++ commaSeparated params ++ tokens [")"]
    ++ [statement body]

/-- The pieces of a variable declaration without the semicolon behind it. -/
def declarationPieces (kind : String) (declarations : List α) : Except Error (List (Piece α)) :=
  if declarations.isEmpty then .error (.malformed .noDeclarators)
  else .ok (tokens [kind] ++ commaSeparated declarations)

/-- The pieces of a construct in statement position. -/
def statementPieces (form : Form α) : Except Error (List (Piece α)) :=
  match form with
  | .program body => .ok (statements body)
  | .blockStatement body => .ok (tokens ["\x7b"] ++ statements body ++ tokens ["\x7d"])
  | .variableDeclaration kind declarations =>
    return (← declarationPieces kind declarations) ++ tokens [";"]
  | .functionDeclaration id params body => .ok (functionPieces id params body)
  | .expressionStatement e => .ok ([expression e] ++ tokens [";"])
  | .breakStatement label => .ok (tokens ["break"] ++ optional [] label ++ tokens [";"])
  | .continueStatement label => .ok (tokens ["continue"] ++ optional [] label ++ tokens [";"])
  | .whileStatement test body =>
    .ok (tokens ["while", "("] ++ [expression test] ++ tokens [")"] ++ [statement body])
  | .doWhileStatement body test =>
    .ok (tokens ["do"] ++ [statement body] ++ tokens ["while", "("] ++ [expression test]
      ++ tokens [")"])
  | .emptyStatement => .ok (tokens [";"])
  | .labeledStatement label body => .ok ([expression label] ++ tokens [":"] ++ [statement body])
  | .forStatement init test update body =>
    .ok (tokens ["for", "("] ++ optional [] init ++ tokens [";"] ++ optional [] test
      ++ tokens [";"] ++ optional [] update ++ tokens [")"] ++ [statement body])
  | .forInStatement left right body =>
    .ok (tokens ["for", "("] ++ [expression left] ++ tokens ["in"] ++ [expression right]
      ++ tokens [")"] ++ [statement body])
  | .ifStatement test consequent alternate =>
    .ok (tokens ["if", "("] ++ [expression test] ++ tokens [")"] ++ [statement consequent]
      ++ match alternate with
        | some alternate => tokens ["else"] ++ [statement alternate]
        | none => [])
  | .debuggerStatement => .ok (tokens ["debugger", ";"])
  | .returnStatement argument => .ok (tokens ["return"] ++ optional [] argument ++ tokens [";"])
  | .switchStatement discriminant cases =>
    .ok (tokens ["switch", "("] ++ [expression discriminant] ++ tokens [")", "\x7b"]
      ++ cases.map expression ++ tokens ["\x7d"])
  | .throwStatement argument => .ok (tokens ["throw"] ++ [expression argument] ++ tokens [";"])
  | .tryStatement block handler finalizer =>
    if handler.isNone && finalizer.isNone then .error (.malformed .bareTry)
    else
      .ok (tokens ["try"] ++ [statement block] ++ optional [] handler
        ++ match finalizer with
          | some finalizer => tokens ["finally"] ++ [statement finalizer]
          | none => [])
  | .identifier name => .ok (tokens [name])
  | .placeholder name => .ok (tokens [name])
  | _ => .error (.unsupportedKind form.kind .statement)

/-- The pieces of a construct in expression position. -/
def expressionPieces (form : Form α) : Except Error (List (Piece α)) :=
  match form with
  | .variableDeclaration kind declarations => declarationPieces kind declarations
  | .variableDeclarator id init => .ok ([expression id] ++ optional ["="] init)
  | .functionDeclaration id params body => .ok (functionPieces id params body)
  | .functionExpression id params body => .ok (functionPieces id params body)
  | .emptyStatement => .ok []
  | .emptyExpression => .ok []
  | .switchCase test consequent =>
    .ok ((match test with
        | some test => tokens ["case"] ++ [expression test]
        | none => tokens ["default"])
      ++ tokens [":"] ++ statements consequent)
  | .catchClause param body =>
    .ok (tokens ["catch"]
      ++ (match param with
        | some param => tokens ["("] ++ [expression param] ++ tokens [")"]
        | none => [])
      ++ [statement body])
  | .identifier name => .ok (tokens [name])
  | .literal _ raw _ => .ok (tokens [literalToken raw])
  | .xmlLiteral => .ok (tokens ["@xmllit"])
  | .arrayExpression elements =>
    .ok (tokens ["["] ++ commaJoined (elements.map (optional [])) ++ tokens ["]"])
  | .assignmentExpression operator left right =>
    .ok ([expression left] ++ tokens [operator] ++ [expression right])
  | .conditionalExpression test consequent alternate =>
    .ok ([expression test] ++ tokens ["?"] ++ [expression consequent] ++ tokens [":"]
      ++ [expression alternate])
  | .memberExpression object member computed =>
    .ok ([expression object]
      ++ if computed then tokens ["["] ++ [expression member] ++ tokens ["]"]
        else tokens ["."] ++ [expression member])
  | .callExpression callee arguments =>
    .ok ([expression callee] ++ tokens ["("] ++ commaSeparated arguments ++ tokens [")"])
  | .newExpression callee arguments =>
    .ok (tokens ["new"] ++ [expression callee] ++ tokens ["("] ++ commaSeparated arguments
      ++ tokens [")"])
  | .binaryExpression operator left right =>
    .ok ([expression left] ++ tokens [operator] ++ [expression right])
  | .logicalExpression operator left right =>
    .ok ([expression left] ++ tokens [operator] ++ [expression right])
  | .thisExpression => .ok (tokens ["this"])
  | .objectExpression properties =>
    .ok (tokens ["\x7b"] ++ commaSeparated properties ++ tokens ["\x7d"])
  | .property key value computed _ _ _ =>
    .ok ((if computed then tokens ["["] ++ [expression key] ++ tokens ["]"] else [expression key])
      ++ tokens [":"] ++ [expression value])
  | .unaryExpression operator argument isPrefix =>
    .ok (if isPrefix then tokens [operator] ++ [expression argument]
      else [expression argument] ++ tokens [operator])
  | .updateExpression operator argument isPrefix =>
    .ok (if isPrefix then tokens [operator] ++ [expression argument]
      else [expression argument] ++ tokens [operator])
  | .yieldExpression argument _ => .ok (tokens ["yield"] ++ optional [] argument)
  | .placeholder name => .ok (tokens [name])
  | _ => .error (.unsupportedKind form.kind .expression)

/-- The pieces of a construct in a position. -/
def production (position : Position) (form : Form α) : Except Error (List (Piece α)) :=
  match position with
  | .statement => form.statementPieces
  | .expression => form.expressionPieces

end Form

/-! ## Every part once, in order -/

namespace Piece

variable {α : Type}

/-- The parts among some pieces, in order. -/
def parts (ps : List (Piece α)) : List α := ps.filterMap part?

@[simp] theorem parts_nil : parts ([] : List (Piece α)) = [] := rfl

@[simp] theorem parts_append (ps qs : List (Piece α)) : parts (ps ++ qs) = parts ps ++ parts qs := by
  simp [parts]

@[simp] theorem parts_token_cons (t : Token) (ps : List (Piece α)) :
    parts (.token t :: ps) = parts ps := rfl

@[simp] theorem parts_part_cons (position : Position) (x : α) (ps : List (Piece α)) :
    parts (.part position x :: ps) = x :: parts ps := rfl

@[simp] theorem parts_tokens (ts : List Token) : parts (tokens ts : List (Piece α)) = [] := by
  induction ts <;> simp_all [tokens]

@[simp] theorem parts_statements (xs : List α) : parts (statements xs) = xs := by
  induction xs <;> simp_all [statements, statement]

@[simp] theorem parts_map_expression (xs : List α) : parts (xs.map expression) = xs := by
  induction xs <;> simp_all [expression]

@[simp] theorem parts_optional (before : List Token) (x : Option α) :
    parts (optional before x) = x.toList := by
  cases x <;> simp [optional, expression]

theorem parts_commaJoined (pss : List (List (Piece α))) :
    parts (commaJoined pss) = pss.flatMap parts := by
  induction pss with
  | nil => rfl
  | cons ps pss ih =>
    cases pss with
    | nil => simp [commaJoined]
    | cons qs pss => simp [commaJoined, ih]

@[simp] theorem parts_commaSeparated (xs : List α) : parts (commaSeparated xs) = xs := by
  simp [commaSeparated, parts_commaJoined, List.flatMap_map, expression]

end Piece

open Piece in
theorem flatMap_parts_optional {α : Type} (xs : List (Option α)) :
    xs.flatMap (parts ∘ optional []) = Form.present xs := by
  induction xs with
  | nil => rfl
  | cons x xs ih => cases x <;> simp_all

open Piece in
/-- **A construct writes each of its parts exactly once and in source order.** -/
theorem Form.children_production {α : Type} {position : Position} {form : Form α}
    {ps : List (Piece α)} (h : form.production position = .ok ps) : parts ps = form.children := by
  have listed : ∀ xs : List (Option α), xs.flatMap (fun x => parts (optional [] x)) = present xs :=
    flatMap_parts_optional
  have declared : ∀ (kind : String) (xs : List α) (qs : List (Piece α)),
      declarationPieces kind xs = .ok qs → parts qs = xs := by
    intro kind xs qs hq
    unfold declarationPieces at hq
    split at hq
    · cases hq
    · cases hq; simp
  cases position <;> cases form <;>
    simp only [production, statementPieces, expressionPieces, reduceCtorEq] at h
  case statement.variableDeclaration kind xs =>
    cases hd : declarationPieces kind xs with
    | error e => rw [hd] at h; cases h
    | ok qs => rw [hd] at h; cases h; simp [declared _ _ _ hd, children]
  case statement.tryStatement block handler finalizer =>
    split at h
    · cases h
    · cases h; cases finalizer <;> simp [statement, children]
  case expression.variableDeclaration kind xs => simpa [children] using declared _ _ _ h
  all_goals
    cases h
    simp only [functionPieces, children, statement, expression]
    repeat' split
    all_goals simp_all [parts_commaJoined, List.flatMap_map]

end RepairCorpus
