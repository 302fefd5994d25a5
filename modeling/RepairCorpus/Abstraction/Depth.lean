import RepairCorpus.Syntax.Node

/-!
# Collapsing deep constructs

The first abstraction hides whole constructs, such as functions and object literals, behind a
placeholder.  A map says which kinds are hidden and behind what.  A construct is hidden only when
it lies deep enough: its depth is the number of blocks and object literals strictly between the
root and the construct.

Only the outermost of nested candidates is hidden; what lies below disappears with it.  The root
is never hidden.  A placeholder keeps both tags of the construct it stands for.
-/

namespace RepairCorpus

/-- The placeholder for each kind of construct that is to be hidden. -/
abbrev PlaceholderMap := Kind → Option String

/-- Functions and object literals are hidden unless told otherwise. -/
def defaultPlaceholders : PlaceholderMap
  | .functionDeclaration | .functionExpression => some "@function"
  | .objectExpression => some "@objectlit"
  | _ => none

/-- An abstracted tree, with the number of nodes replaced in it. -/
structure Abstracted where
  tree : Node
  replaced : Nat
  deriving Inhabited

/-- The level that a construct adds for its parts. -/
def Kind.depthStep (k : Kind) : Nat := if k.increasesDepth then 1 else 0

namespace Node

/-- Replaces a construct by a placeholder and keeps the tags. -/
def asPlaceholder (n : Node) (name : String) : Node := n.withForm (.placeholder name)

/-- Puts abstracted parts into a form. -/
def gather (form : Form Abstracted) : Form Node × Nat :=
  (form.map Abstracted.tree, (form.children.map Abstracted.replaced).foldr (· + ·) 0)

/-- Abstracts a node below the root, which lies at a depth. -/
def collapseFrom (placeholders : PlaceholderMap) (minDepth : Nat) : Node → Nat → Abstracted :=
  fold fun own underlying form depth =>
    match placeholders form.kind with
    | some name =>
      if minDepth ≤ depth then ⟨⟨own, underlying, .placeholder name⟩, 1⟩
      else
        let (inner, replaced) := gather (form.map fun p => p.2 (depth + form.kind.depthStep))
        ⟨⟨own, underlying, inner⟩, replaced⟩
    | none =>
      let (inner, replaced) := gather (form.map fun p => p.2 (depth + form.kind.depthStep))
      ⟨⟨own, underlying, inner⟩, replaced⟩

/-- Hides every outermost construct below the root that is mapped and lies at `minDepth` or
deeper. -/
def collapse (n : Node) (placeholders : PlaceholderMap) (minDepth : Nat) : Abstracted :=
  let (inner, replaced) := gather (n.form.map fun c => c.collapseFrom placeholders minDepth 0)
  ⟨n.withForm inner, replaced⟩

/-- The least depth at which constructs are hidden: in a program that is a single function, the
function itself stays. -/
def defaultMinDepth (n : Node) : Nat := if n.isSingleFunction then 1 else 0

end Node

end RepairCorpus
