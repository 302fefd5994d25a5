import Std.Data.HashMap

/-!
# Counting trie in an array

The counting trie can be laid out in one array.  Each cell of the array stands for the letters on the way
to it from the first cell, the root, and a cell knows its children by their indices.  A new cell goes to
the back, so that an index once given keeps its cell, and whoever holds on to the index of a word finds
the word without spelling it.

An index is looked up each time it is used.  All functions that do so are partial: they have no result if
an index is out of range, and neither has a walk that would not end.

* `extend`, `spell`: the cell of a word, made if it is missing.
* `find`, `ask`: the cell of a word and what it knows.
* `gather`, `counts`: all words that have been seen, in order, with their counts.
-/

namespace RepairCorpus

/-- Children by their letters. -/
abbrev Children := @Std.HashMap Char Nat instBEqOfDecidableEq instHashableChar

/-- A cell of the trie.  Its word ends with its letter; the root has none.  The word has a count once it
has been seen, and a slot while it is a resident of the miner. -/
structure Cell where
  letter : Option Char
  count : Option Nat
  children : Children
  slot : Option Nat

namespace Cell

/-- A cell whose word has not been seen. -/
def fresh (letter : Option Char) : Cell := ⟨letter, none, ∅, none⟩

/-- Counts one more occurrence of a cell's word. -/
def seen (x : Cell) : Cell :=
  { x with count := some (match x.count with | some n => n + 1 | none => 1) }

/-- Notes the slot of a cell's word, or that it has none. -/
def placed (slot : Option Nat) (x : Cell) : Cell := { x with slot := slot }

/-- Notes a child. -/
def adopt (letter : Char) (child : Nat) (x : Cell) : Cell :=
  { x with children := x.children.insert letter child }

/-- The children in the order of their letters. -/
def orderedChildren (x : Cell) : List (Char × Nat) :=
  x.children.toList.mergeSort fun c d => c.1 ≤ d.1

end Cell

/-- The cells of a trie. -/
structure Arena where
  cells : Array Cell

/-- A walk through a trie: the letters on the way to the current cell, the last one first, and the words
found so far with their counts. -/
structure Harvest where
  letters : List Char
  found : Array (String × Nat)

namespace Harvest

/-- Goes into a cell with a letter. -/
def enter (g : Harvest) : Option Char → Harvest
  | some c => { g with letters := c :: g.letters }
  | none => g

/-- Notes the word on the way if it has a count. -/
def reap (g : Harvest) : Option Nat → Harvest
  | some n => { g with found := g.found.push (String.ofList g.letters.reverse, n) }
  | none => g

/-- Leaves a cell with a letter. -/
def leave (g : Harvest) : Option Char → Harvest
  | some _ => { g with letters := g.letters.tail }
  | none => g

end Harvest

namespace Arena

/-- The index of the root. -/
def root : Nat := 0

/-- A trie without words. -/
def empty : Arena := ⟨#[.fresh none]⟩

/-- Changes the cell at an index. -/
def update (a : Arena) (i : Nat) (f : Cell → Cell) : Option Arena := do
  let x ← a.cells[i]?
  return ⟨a.cells.setIfInBounds i (f x)⟩

/-! ## Words -/

/-- The child of a cell with a letter, made if it is missing. -/
def extend (a : Arena) (i : Nat) (c : Char) : Option (Nat × Arena) := do
  let x ← a.cells[i]?
  match x.children[c]? with
  | some j => return (j, a)
  | none =>
    let j := a.cells.size
    let a ← update ⟨a.cells.push (.fresh (some c))⟩ i (.adopt c j)
    return (j, a)

/-- The cell to which letters lead from another cell; what is missing on the way is made. -/
def spell (a : Arena) (i : Nat) : List Char → Option (Nat × Arena)
  | [] => some (i, a)
  | c :: cs => do
    let (j, a) ← a.extend i c
    a.spell j cs

/-- The cell to which letters lead from another cell, if there is one. -/
def findFrom (a : Arena) (i : Nat) : List Char → Option (Option Nat)
  | [] => some (some i)
  | c :: cs => do
    let x ← a.cells[i]?
    match x.children[c]? with
    | some j => a.findFrom j cs
    | none => return none

/-- The cell of a word, if there is one. -/
def find (a : Arena) (word : String) : Option (Option Nat) := a.findFrom root word.toList

/-- What the cell of a word knows. -/
def ask {α : Type} (a : Arena) (f : Cell → Option α) (word : String) : Option (Option α) := do
  match ← a.find word with
  | some i => return f (← a.cells[i]?)
  | none => return none

/-! ## Walking -/

/-- Gathers the words at and below a cell, on ways of no more than some number of cells. -/
def gather (a : Arena) : Nat → Harvest → Nat → Option Harvest
  | 0, _, _ => none
  | rest + 1, g, i => do
    let x ← a.cells[i]?
    let g ← x.orderedChildren.foldlM (fun g child => a.gather rest g child.2)
      ((g.enter x.letter).reap x.count)
    return g.leave x.letter

/-- The words seen, in ascending order, with their counts.  A way of more cells than there are would lead
through a cell twice and would have no end. -/
def counts (a : Arena) : Option (List (String × Nat)) :=
  (a.gather a.cells.size ⟨[], #[]⟩ root).map fun g => g.found.toList

/-- The number of words seen. -/
def distinct (a : Arena) : Nat := a.cells.countP fun x => x.count.isSome

end Arena

end RepairCorpus
