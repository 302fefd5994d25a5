import RepairCorpus.Vocabulary.Arena
import RepairCorpus.Vocabulary.Miner

/-!
# Mining with arrays

A miner whose trie is laid out in an array.  An entry of the heap points at the cell of its word, and the
cell of a resident knows its slot in the heap, so neither has to be searched for when a word is read.  It
gives the same answers as `Miner`.

Every index into the heap or into the trie is looked up, and there is no result if one is out of range.
-/

namespace RepairCorpus

/-- An entry of the heap: a resident and the cell of its word. -/
structure Entry where
  word : String
  count : Nat
  cell : Nat
  deriving DecidableEq, Inhabited

/-- The resident of an entry. -/
def Entry.resident (e : Entry) : Resident := ⟨e.word, e.count⟩

/-- The state of a miner whose trie is an array. -/
structure ArrayMiner where
  capacity : Nat
  arena : Arena
  heap : Array Entry

namespace ArrayMiner

/-- A miner without words; it must be able to hold at least one. -/
def new (capacity : Nat) : Except Error ArrayMiner :=
  if capacity = 0 then .error .zeroCapacity else .ok ⟨capacity, .empty, #[]⟩

/-! ## The heap -/

/-- Notes the slot of a cell's word, or that it has none. -/
def note (t : ArrayMiner) (cell : Nat) (slot : Option Nat) : Option ArrayMiner := do
  let a ← t.arena.update cell (.placed slot)
  return { t with arena := a }

/-- Exchanges two entries. -/
def swap (t : ArrayMiner) (i j : Nat) : Option ArrayMiner := do
  let x ← t.heap[i]?
  let y ← t.heap[j]?
  let t : ArrayMiner := { t with heap := t.heap.swapIfInBounds i j }
  let t ← t.note y.cell (some i)
  t.note x.cell (some j)

/-- Moves an entry towards the front while its parent has a greater count. -/
def siftUp (t : ArrayMiner) (i : Nat) : Option ArrayMiner :=
  if h : i = 0 then some t
  else do
    let above ← t.heap[(i - 1) / 2]?
    let x ← t.heap[i]?
    if above.count ≤ x.count then return t
    else
      let t ← t.swap i ((i - 1) / 2)
      t.siftUp ((i - 1) / 2)
termination_by i
decreasing_by omega

/-- The child of a slot with the lesser count, the left one on a tie; there are `size` slots. -/
def lesserChild (t : ArrayMiner) (size i : Nat) : Option Nat :=
  let left := 2 * i + 1
  let right := left + 1
  if right < size then do
    let x ← t.heap[right]?
    let y ← t.heap[left]?
    return if x.count < y.count then right else left
  else some left

theorem lt_lesserChild {t : ArrayMiner} {size i child : Nat} (h : t.lesserChild size i = some child) :
    i < child := by
  simp only [lesserChild] at h
  split at h
  next =>
    obtain ⟨x, -, h⟩ := Option.bind_eq_some_iff.mp h
    obtain ⟨y, -, h⟩ := Option.bind_eq_some_iff.mp h
    cases h
    split <;> omega
  next =>
    cases h
    omega

/-- Moves an entry towards the back while a child has a lesser count; there are `size` slots. -/
def siftDown (size : Nat) (t : ArrayMiner) (i : Nat) : Option ArrayMiner :=
  if size ≤ 2 * i + 1 then some t
  else
    match _h : t.lesserChild size i with
    | none => none
    | some child => do
      let x ← t.heap[i]?
      let y ← t.heap[child]?
      if x.count ≤ y.count then return t
      else
        let t ← t.swap i child
        siftDown size t child
termination_by size - i
decreasing_by
  have := lt_lesserChild _h
  omega

/-! ## Words -/

/-- Lets an entry in, at the back while there is room and in place of the least frequent resident
otherwise. -/
def enroll (t : ArrayMiner) (e : Entry) : Option ArrayMiner :=
  if t.heap.size < t.capacity then do
    let i := t.heap.size
    let t ← t.note e.cell (some i)
    let t : ArrayMiner := { t with heap := t.heap.push e }
    t.siftUp i
  else do
    let least ← t.heap[0]?
    let t ← t.note least.cell none
    let t ← t.note e.cell (some 0)
    let t : ArrayMiner := { t with heap := t.heap.setIfInBounds 0 e }
    siftDown t.heap.size t 0

/-- Whether a word that is no resident is passed by. -/
def passesBy (t : ArrayMiner) (count : Nat) : Option Bool :=
  if t.heap.size = t.capacity then do
    let least ← t.heap[0]?
    return count ≤ least.count
  else some false

/-- Brings the heap up to date after the count of a word has grown. -/
def promote (t : ArrayMiner) (word : String) (cell : Nat) : Option ArrayMiner := do
  let x ← t.arena.cells[cell]?
  let e : Entry := ⟨word, x.count.getD 0, cell⟩
  if t.heap.isEmpty then
    let t : ArrayMiner := { t with heap := t.heap.push e }
    t.note cell (some 0)
  else
    match x.slot with
    | none => if ← t.passesBy e.count then return t else t.enroll e
    | some i =>
      let old ← t.heap[i]?
      let t : ArrayMiner := { t with heap := t.heap.setIfInBounds i { old with count := e.count } }
      siftDown t.heap.size t i

/-- Reads one word.  The empty word is passed over. -/
def add (t : ArrayMiner) (word : String) : Option ArrayMiner :=
  if word.isEmpty then some t
  else do
    let (cell, a) ← t.arena.spell Arena.root word.toList
    let a ← a.update cell .seen
    let t : ArrayMiner := { t with arena := a }
    t.promote word cell

/-- Reads words one after the other. -/
def addAll (t : ArrayMiner) (words : List String) : Option ArrayMiner := words.foldlM add t

/-! ## Answers -/

/-- How often a word has been read, if at all. -/
def count? (t : ArrayMiner) (word : String) : Option (Option Nat) := t.arena.ask Cell.count word

/-- Whether a word is among the residents. -/
def isResident (t : ArrayMiner) (word : String) : Option Bool :=
  (t.arena.ask Cell.slot word).map Option.isSome

/-- A resident of least count. -/
def least? (t : ArrayMiner) : Option Resident := t.heap[0]?.map Entry.resident

/-- The residents in the order of the heap, of which only the first is a promise. -/
def residents (t : ArrayMiner) : List Resident := t.heap.toList.map Entry.resident

/-- The residents by descending count, and among equal counts in ascending order. -/
def ranking (t : ArrayMiner) : List Resident := t.residents.mergeSort Miner.ranksBefore

/-- All words read, in ascending order, with their counts. -/
def counts (t : ArrayMiner) : Option (List (String × Nat)) := t.arena.counts

/-- The number of different words read. -/
def distinct (t : ArrayMiner) : Nat := t.arena.distinct

end ArrayMiner

end RepairCorpus
