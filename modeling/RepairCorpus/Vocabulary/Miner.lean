import RepairCorpus.Error
import RepairCorpus.Vocabulary.Trie

/-!
# Mining the most frequent words

A miner reads words one by one and holds on to the `capacity` most frequent of them, its
*residents*.  All counts live in a trie; the residents also stand in a binary heap with the least
frequent one in front, so the word to give up is always at hand.  Each resident's mark in the trie
names its slot in the heap, and the two are kept in step.

A word enters as long as there is room.  After that it enters only once its count exceeds the
least count among the residents, whose holder then leaves: a tie keeps the word that was there
before.
-/

namespace RepairCorpus

/-- A resident word with its count. -/
structure Resident where
  word : String
  count : Nat
  deriving DecidableEq, Inhabited

/-- The state of a miner. -/
structure Miner where
  capacity : Nat
  trie : Trie
  heap : Array Resident
  deriving Inhabited

namespace Miner

/-- A miner without words; it must be able to hold at least one. -/
def new (capacity : Nat) : Except Error Miner :=
  if capacity = 0 then .error .zeroCapacity else .ok ⟨capacity, .empty, #[]⟩

/-! ## The heap -/

/-- The count in a slot of the heap. -/
def countAt (m : Miner) (i : Nat) : Nat :=
  match m.heap[i]? with
  | some r => r.count
  | none => 0

/-- Notes the slot of a word, or that it has none. -/
def note (m : Miner) (word : String) (slot : Option Nat) : Miner :=
  { m with trie := m.trie.modify (fun mark => { mark with slot := slot }) word }

/-- Notes the slot of whatever word stands in it. -/
def noteSlot (m : Miner) (i : Nat) : Miner :=
  match m.heap[i]? with
  | some r => m.note r.word (some i)
  | none => m

/-- Exchanges two residents. -/
def swap (m : Miner) (i j : Nat) : Miner :=
  ({ m with heap := m.heap.swapIfInBounds i j }.noteSlot i).noteSlot j

@[simp] theorem heap_note (m : Miner) (word : String) (slot : Option Nat) :
    (m.note word slot).heap = m.heap := rfl

@[simp] theorem heap_noteSlot (m : Miner) (i : Nat) : (m.noteSlot i).heap = m.heap := by
  unfold noteSlot
  split <;> rfl

@[simp] theorem heap_swap (m : Miner) (i j : Nat) :
    (m.swap i j).heap = m.heap.swapIfInBounds i j := by
  simp [swap]

/-- Moves a resident towards the front while its parent has a greater count. -/
def siftUp (m : Miner) (i : Nat) : Miner :=
  if i = 0 then m
  else
    let parent := (i - 1) / 2
    if m.countAt parent ≤ m.countAt i then m else (m.swap i parent).siftUp parent
termination_by i
decreasing_by omega

/-- The child of a slot with the lesser count, the left one on a tie. -/
def lesserChild (m : Miner) (i : Nat) : Nat :=
  let left := 2 * i + 1
  let right := left + 1
  if right < m.heap.size ∧ m.countAt right < m.countAt left then right else left

theorem lt_lesserChild (m : Miner) (i : Nat) : i < m.lesserChild i := by
  simp only [lesserChild]
  split <;> omega

/-- Moves a resident towards the back while a child has a lesser count. -/
def siftDown (m : Miner) (i : Nat) : Miner :=
  if m.heap.size ≤ 2 * i + 1 then m
  else
    let child := m.lesserChild i
    if m.countAt i ≤ m.countAt child then m else (m.swap i child).siftDown child
termination_by m.heap.size - i
decreasing_by
  have := m.lt_lesserChild i
  simp only [heap_swap, Array.size_swapIfInBounds]
  omega

/-! ## Words -/

/-- Lets a word with a count in, at the back while there is room and in place of the least
frequent resident otherwise. -/
def enroll (m : Miner) (r : Resident) : Miner :=
  if m.heap.size < m.capacity then
    let i := m.heap.size
    ({ m with heap := m.heap.push r }.note r.word (some i)).siftUp i
  else
    let m := match m.heap[0]? with
      | some least => m.note least.word none
      | none => m
    ({ m with heap := m.heap.setIfInBounds 0 r }.note r.word (some 0)).siftDown 0

/-- Brings the residents up to date after the count of a word has grown. -/
def promote (m : Miner) (r : Resident) (slot : Option Nat) : Miner :=
  match slot with
  | some i => { m with heap := m.heap.setIfInBounds i r }.siftDown i
  | none =>
    if m.heap.size = m.capacity ∧ r.count ≤ m.countAt 0 then m else m.enroll r

/-- Reads one word.  The empty word is passed over. -/
def add (m : Miner) (word : String) : Miner :=
  if word.isEmpty then m
  else
    let trie := m.trie.modify (fun mark => { mark with count := mark.count + 1 }) word
    let mark := trie.markOf word
    { m with trie := trie }.promote ⟨word, mark.count⟩ mark.slot

/-- Reads words one after the other. -/
def addAll (m : Miner) (words : List String) : Miner := words.foldl add m

/-! ## Answers -/

/-- How often a word has been read, if at all. -/
def count? (m : Miner) (word : String) : Option Nat :=
  match (m.trie.markOf word).count with
  | 0 => none
  | n => some n

/-- Whether a word is among the residents. -/
def isResident (m : Miner) (word : String) : Bool := (m.trie.markOf word).slot.isSome

/-- A resident of least count. -/
def least? (m : Miner) : Option Resident := m.heap[0]?

/-- The residents in the order of the heap, of which only the first is a promise. -/
def residents (m : Miner) : List Resident := m.heap.toList

/-- Whether a resident ranks before another: by greater count, then by lesser word. -/
def ranksBefore (r s : Resident) : Bool :=
  s.count < r.count || (r.count = s.count && r.word ≤ s.word)

/-- The residents by descending count, and among equal counts in ascending order. -/
def ranking (m : Miner) : List Resident := m.residents.mergeSort ranksBefore

/-- All words read, in ascending order, with their counts. -/
def counts (m : Miner) : List (String × Nat) := m.trie.counts

/-- The number of different words read. -/
def distinct (m : Miner) : Nat := m.trie.distinct

end Miner

end RepairCorpus
