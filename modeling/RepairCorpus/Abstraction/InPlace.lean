import RepairCorpus.Abstraction.Hiding
import RepairCorpus.Syntax.Ref

/-!
# Abstraction in place

The abstractions of `RepairCorpus.Abstraction.Depth` and `RepairCorpus.Abstraction.Hiding` once more,
made on one tree that changes under them.  Neither descends into the tree: each keeps a list of the
places it has yet to come to, and reaches all of them through references into the tree as it is by
then.

Collapsing goes on with the place noted last.  It opens the node there and decides about all its
parts at once, with the depth noted beside the place.  Hiding goes on with the place noted first and
decides about the node there only when its turn has come.  This is why it numbers identifiers breadth
first: a number is handed out when an identifier is met.

Every node is taken from a list once at most, so the size of the tree bounds the number of turns.
-/

namespace RepairCorpus

/-- The paths of the parts of a node that is at the end of a path. -/
def Node.partPaths (n : Node) (p : Path) : List Path :=
  (List.range n.refs.length).map fun i => p ++ [i]

/-! ## Collapsing -/

/-- A node that is to be opened. -/
structure Opening where
  path : Path
  /-- The depth at which the parts of the node lie. -/
  depth : Nat
  deriving DecidableEq, Inhabited

/-- A tree while constructs are being collapsed in it. -/
structure CollapseRun where
  tree : Node
  /-- The nodes that are to be opened, the one noted last in front. -/
  waiting : List Opening
  replaced : Nat
  deriving Inhabited

namespace CollapseRun

variable (placeholders : PlaceholderMap) (minDepth : Nat)

/-- Notes a node whose parts lie at a depth. -/
def note (s : CollapseRun) (p : Path) (depth : Nat) : CollapseRun :=
  { s with waiting := ⟨p, depth⟩ :: s.waiting }

/-- Puts a placeholder where a reference leads. -/
def put (s : CollapseRun) (ref : Ref Node Node) (name : String) : CollapseRun :=
  { s with tree := ref.fill (ref.held.asPlaceholder name), replaced := s.replaced + 1 }

/-- Decides about a part that lies at a depth: hides it, or notes that it is to be opened. -/
def decideAt (depth : Nat) (s : CollapseRun) (p : Path) : CollapseRun :=
  match s.tree.refAt? p with
  | none => s
  | some part =>
    match placeholders part.held.kind with
    | some name =>
      if minDepth ≤ depth then s.put part name
      else s.note p (depth + part.held.kind.depthStep)
    | none => s.note p (depth + part.held.kind.depthStep)

/-- Opens a node and decides about each of its parts. -/
def enter (s : CollapseRun) (o : Opening) : CollapseRun :=
  match s.tree.refAt? o.path with
  | none => s
  | some node => (node.held.partPaths o.path).foldl (decideAt placeholders minDepth o.depth) s

/-- Opens nodes until none waits, a number of nodes at most. -/
def run : Nat → CollapseRun → CollapseRun
  | 0, s => s
  | k + 1, s =>
    match s.waiting with
    | [] => s
    | o :: waiting => run k (enter placeholders minDepth { s with waiting := waiting } o)

end CollapseRun

namespace Node

/-- A tree in which constructs have been collapsed in place, with what is left of the list. -/
def collapseRun (n : Node) (placeholders : PlaceholderMap) (minDepth : Nat) : CollapseRun :=
  CollapseRun.run placeholders minDepth n.size ⟨n, [⟨[], 0⟩], 0⟩

/-- Hides every outermost construct below the root that is mapped and lies at `minDepth` or deeper,
in place. -/
def collapseInPlace (n : Node) (placeholders : PlaceholderMap) (minDepth : Nat) : Abstracted :=
  let done := n.collapseRun placeholders minDepth
  ⟨done.tree, done.replaced⟩

end Node

/-! ## Hiding -/

/-- A tree while unknown words are being hidden in it. -/
structure HideRun where
  tree : Node
  /-- The paths of the nodes to come, the one noted first in front. -/
  queue : List Path
  replaced : Nat
  /-- The number handed out last. -/
  counter : Nat
  deriving Inhabited

namespace HideRun

variable (known : String → Bool) (unique : Bool)

/-- Puts a placeholder where a reference leads. -/
def put (s : HideRun) (ref : Ref Node Node) (name : String) : HideRun :=
  { s with tree := ref.fill (ref.held.asPlaceholder name), replaced := s.replaced + 1 }

/-- Hides an identifier, under the next number if numbers are asked for. -/
def putIdentifier (s : HideRun) (ref : Ref Node Node) : HideRun :=
  if unique then
    { s with counter := s.counter + 1 }.put ref (identifierPlaceholder (some (s.counter + 1)))
  else s.put ref (identifierPlaceholder none)

/-- Decides about the node at the end of a path: hides it, or notes its parts. -/
def decideAt (s : HideRun) (p : Path) : HideRun :=
  match s.tree.refAt? p with
  | none => s
  | some node =>
    match node.held.form.disguise known with
    | .keep => { s with queue := s.queue ++ node.held.partPaths p }
    | .identifier => s.putIdentifier unique node
    | .fixed name => s.put node name

/-- Decides about nodes until none is to come, a number of nodes at most. -/
def run : Nat → HideRun → HideRun
  | 0, s => s
  | k + 1, s =>
    match s.queue with
    | [] => s
    | p :: queue => run k (decideAt known unique { s with queue := queue } p)

end HideRun

namespace Node

/-- A tree in which words have been hidden in place, with what is left of the queue. -/
def hideRun (n : Node) (v : Vocabulary) (unique : Bool) (counter : Nat) : HideRun :=
  HideRun.run v.contains unique n.size ⟨n, n.partPaths [], 0, counter⟩

/-- Hides the unknown words below the root of a tree in place, numbering identifiers from the counter
on if they are to be told apart. -/
def hideInPlace (n : Node) (v : Vocabulary) (unique : Bool) (counter : Nat) : Hidden :=
  let done := n.hideRun v unique counter
  ⟨done.tree, done.replaced, done.counter⟩

/-- Hides the unknown words of a tree in place, with numbers that it shares with no other tree. -/
def hideAlone (n : Node) (v : Vocabulary) (unique : Bool) : Hidden := n.hideInPlace v unique 0

/-- Hides the unknown words of some trees in place, one tree after the other.  Every tree goes on from
the counter that the one before it has left. -/
def hideEach (v : Vocabulary) (unique : Bool) : List Node → Nat → List Hidden
  | [], _ => []
  | n :: ns, counter =>
    let hidden := n.hideInPlace v unique counter
    hidden :: hideEach v unique ns hidden.counter

end Node

end RepairCorpus
