import RepairCorpus.Syntax.Kind
import RepairCorpus.Syntax.Tag

/-!
# Errors

Work on a tree fails for one of four causes: a construct has no tokens where it stands, an
enclosing construct cannot give up a try statement, the input is malformed, or a miner is asked to
hold no words.  The causes are data; their wording is in `Error.message` alone.

Only the second cause is recoverable: it concerns a single candidate for mutation, and the search
goes on with the next one.
-/

namespace RepairCorpus

/-- The two ways in which a production emits a part. -/
inductive Position where
  | statement
  | expression
  deriving DecidableEq, Inhabited

/-- The word for a position in messages. -/
def Position.name : Position → String
  | .statement => "statement"
  | .expression => "expression"

/-- What can be wrong with input. -/
inductive Malformation where
  /-- A document is not JSON, or a value in it is not what its place asks for. -/
  | unreadable
  | missingField (name : String)
  | duplicateField (name : String)
  | unknownTag (text : String)
  | noDeclarators
  | bareTry
  | lostOwner
  | notATry
  | tryBlockNotABlock
  | tryBlockEmptied
  | patchedNotATry
  | noAfterTree
  deriving DecidableEq, Inhabited

/-- The wording of a malformation. -/
def Malformation.message : Malformation → String
  | .unreadable => "unreadable document"
  | .missingField name => "missing field `" ++ name ++ "`"
  | .duplicateField name => "duplicate field `" ++ name ++ "`"
  | .unknownTag text =>
    "unknown variant `" ++ text ++ "`, expected one of "
      ++ ", ".intercalate (Tag.all.map fun t => "`" ++ t.name ++ "`")
  | .noDeclarators => "variable declaration has no declarators"
  | .bareTry => "try statement has neither a handler nor a finalizer"
  | .lostOwner => "mutation owner path no longer resolves"
  | .notATry => "mutation candidate is not a try statement"
  | .tryBlockNotABlock => "try block is not a block statement"
  | .tryBlockEmptied => "try block emptied"
  | .patchedNotATry => "patched node is not a try statement"
  | .noAfterTree => "slice change pair has no after-ast"

/-- Why work on a tree failed. -/
inductive Error where
  /-- A construct has no production for its position. -/
  | unsupportedKind (kind : Kind) (position : Position)
  /-- A construct cannot give up a try statement among its parts. -/
  | unsupportedOwner (kind : Kind)
  | malformed (cause : Malformation)
  /-- A miner must hold at least one word. -/
  | zeroCapacity
  deriving DecidableEq, Inhabited

namespace Error

/-- The wording of an error. -/
def message : Error → String
  | .unsupportedKind kind position =>
    "unsupported node kind `" ++ kind.name ++ "` in " ++ position.name ++ " position"
  | .unsupportedOwner kind => "no detach entry for owner kind `" ++ kind.name ++ "`"
  | .malformed cause => "malformed input: " ++ cause.message
  | .zeroCapacity => "heap capacity must be greater than zero"

/-- Whether an error concerns a single candidate for mutation only. -/
def isRecoverable : Error → Bool
  | .unsupportedOwner _ => true
  | _ => false

end Error

end RepairCorpus
