import RepairCorpus.Sequence.Production
import RepairCorpus.Syntax.Node

/-!
# Token sequences

A tree is written by its production, part by part, and every node whose tag is made visible is
enclosed in the boundary tokens of that tag.  So the tokens of a subtree are always one contiguous
run, and the boundary tokens nest.

The root stands in statement position.  A function declaration at the root that merely inherited
its tag is written with the tag it inherited: when whole functions are diffed as pieces, that is
where the change of the function itself is recorded.

The first construct without a production, in source order, is the error of the whole tree.
-/

namespace RepairCorpus

/-- Encloses tokens in the boundary tokens of a tag that is made visible. -/
def Tag.wrap (t : Tag) (ts : List Token) : List Token :=
  if t.isWrapped then t.startMarker :: ts ++ [t.endMarker] else ts

/-- The tokens of some pieces, when it is known how each part is written in its position. -/
def Piece.write : List (Piece (Position → Except Error (List Token))) → Except Error (List Token)
  | [] => .ok []
  | .token t :: ps => do return t :: (← write ps)
  | .part position x :: ps => do
    let ts ← x position
    return ts ++ (← write ps)

namespace Node

/-- The tokens a node's production writes in a position, without the node's own boundary
tokens. -/
def ownTokens : Node → Position → Except Error (List Token) :=
  fold fun _ _ form position => do
    let ps ← (form.map fun p q => p.1.own.wrap <$> p.2 q).production position
    Piece.write ps

/-- The tokens of a node in a position. -/
def tokens (n : Node) (position : Position) : Except Error (List Token) :=
  n.own.wrap <$> n.ownTokens position

/-- The tag with which a root is written. -/
def rootTag (n : Node) : Tag :=
  if n.kind = .functionDeclaration ∧ n.own = .inherited then n.underlying else n.own

/-- The token sequence of a tree. -/
def sequence (n : Node) : Except Error (List Token) :=
  n.rootTag.wrap <$> n.ownTokens .statement

theorem ownTokens_mk (own underlying : Tag) (form : Form Node) (position : Position) :
    ownTokens ⟨own, underlying, form⟩ position =
      ((form.map tokens).production position).bind Piece.write := by
  simp only [ownTokens, fold_mk, Form.map_map, Function.comp_def]
  rfl

end Node

/-- A sequence as one line, with a space between tokens. -/
def lineOf (ts : List Token) : String := " ".intercalate ts

end RepairCorpus
