import RepairCorpus.Abstraction.Depth
import RepairCorpus.Text.Digits
import RepairCorpus.Vocabulary.Known

/-!
# Hiding unknown words

The second abstraction replaces identifiers and literals that a vocabulary does not know by
placeholders.  Literals are told apart by their value only.  Identifiers may be told apart by
numbers: they are numbered breadth first, that is by their distance from the root and then from
left to right, and a counter carries the numbering on from one tree to the next.

A tree is walked depth first all the same.  `levels` counts the identifiers to be numbered on each
level of a subtree, so the walk knows for every subtree how many identifiers of a level lie to
its left, and with the counts of the levels above that is every number handed out before.
-/

namespace RepairCorpus

/-- What hiding does with a construct. -/
inductive Disguise where
  | keep
  /-- An unknown identifier, numbered where numbers are asked for. -/
  | identifier
  | fixed (name : String)
  deriving DecidableEq, Inhabited

/-- The placeholder of an identifier, with its number if it has one. -/
def identifierPlaceholder : Option Nat → String
  | none => "__abs__identifier"
  | some n => "__abs__identifier__" ++ Text.ofNat n ++ "__"

/-- What hiding does with a construct when some words are known. -/
def Form.disguise {α : Type} (known : String → Bool) : Form α → Disguise
  | .identifier name => if known name then .keep else .identifier
  | .literal value raw regex =>
    if known (literalToken raw) then .keep
    else if regex.isSome then .fixed "__abs__regexlit"
    else
      match value with
      | .number _ => .fixed "__abs__numlit"
      | .text _ => .fixed "__abs__stringlit"
      | .regex _ => .fixed "__abs__regexlit"
      | .bool _ | .null => .keep
  | _ => .keep

/-! ## Counting by level -/

/-- Adds counts level by level. -/
def addLevels : List Nat → List Nat → List Nat
  | [], ms => ms
  | ns, [] => ns
  | n :: ns, m :: ms => (n + m) :: addLevels ns ms

/-- The counts at the start of each of some neighbouring subtrees, when `start` holds them at the
start of the first. -/
def startsFrom (start : List Nat) : List (List Nat) → List (List Nat)
  | [] => []
  | ls :: lss => start :: startsFrom (addLevels start ls) lss

/-- For each level the number of identifiers on the levels before it, the count behind the last
level included. -/
def totalsFrom (total : Nat) : List Nat → List Nat
  | [] => [total]
  | n :: ns => total :: totalsFrom (total + n) ns

namespace Node

variable (known : String → Bool)

/-- The number of unknown identifiers on each level of a tree, the root being the first. -/
def levels : Node → List Nat :=
  fold fun _ _ form =>
    (if form.disguise known = .identifier then 1 else 0)
      :: (form.children.map Prod.snd).foldl addLevels []

/-- Abstracts a node below the root.  The list says for each level, the node's own first, how many
identifiers have been numbered before this subtree. -/
def hideFrom (unique : Bool) : Node → List Nat → Abstracted :=
  fold fun own underlying form before =>
    match form.disguise known with
    | .fixed name => ⟨⟨own, underlying, .placeholder name⟩, 1⟩
    | .identifier =>
      let number := if unique then some (before.headD 0 + 1) else none
      ⟨⟨own, underlying, .placeholder (identifierPlaceholder number)⟩, 1⟩
    | .keep =>
      let starts := startsFrom before.tail (form.children.map fun p => p.1.levels known)
      let (inner, replaced) := gather (form.mapIdx fun i p => p.2 (starts.getD i []))
      ⟨⟨own, underlying, inner⟩, replaced⟩

end Node

/-- A tree with its unknown words hidden, the number of nodes replaced, and the counter
afterwards. -/
structure Hidden where
  tree : Node
  replaced : Nat
  counter : Nat
  deriving Inhabited

/-- Hides the unknown words below the root of a tree, numbering identifiers from the counter on if
they are to be told apart. -/
def Node.hide (n : Node) (v : Vocabulary) (unique : Bool) (counter : Nat) : Hidden :=
  let levels := (n.children.map (Node.levels v.contains)).foldl addLevels []
  let totals := totalsFrom counter levels
  let starts := startsFrom totals (n.children.map (Node.levels v.contains))
  let (inner, replaced) :=
    Node.gather (n.form.mapIdx fun i c => c.hideFrom v.contains unique (starts.getD i []))
  ⟨n.withForm inner, replaced, if unique then levels.foldr (· + ·) counter else counter⟩

end RepairCorpus
