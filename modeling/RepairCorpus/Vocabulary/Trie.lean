/-!
# Counting trie

The miner keeps the number of occurrences of every word it has seen, so that a word that was
pushed out can come back with its full count.  The counts are kept in a trie: words with a common
beginning share it.

The trie is stored as siblings and children.  A `branch` is a letter with what is known about the
word that ends there, the words that go on below it, and the words that have a later letter in its
place.  Letters of siblings ascend, so a walk through the trie finds the words in ascending order.

* `markOf`: what is known about a word.
* `modify`: changes that, adding the word's branches where they are missing.
* `counts`: all words that have been seen, in order, with their counts.
-/

namespace RepairCorpus

/-- What is known about a word: how often it has been seen, and its slot among the residents of
the miner if it has one. -/
structure Mark where
  count : Nat
  slot : Option Nat
  deriving DecidableEq, Inhabited

/-- A word that has not been seen. -/
def Mark.blank : Mark := ⟨0, none⟩

/-- A set of words with marks. -/
inductive Trie where
  | empty
  | branch (letter : Char) (mark : Mark) (below beside : Trie)
  deriving DecidableEq, Inhabited

namespace Trie

/-! ## Looking up -/

/-- The mark of the word with a first letter and further ones. -/
def find : Trie → Char → List Char → Mark
  | .empty, _, _ => .blank
  | .branch d mark below beside, c, cs =>
    if c = d then
      match cs with
      | [] => mark
      | c' :: cs' => below.find c' cs'
    else beside.find c cs

/-- The mark of a word; the empty word has none. -/
def markOf (t : Trie) (word : String) : Mark :=
  match word.toList with
  | [] => .blank
  | c :: cs => t.find c cs

/-! ## Changing -/

/-- The branches of a single word, with other words beside its first letter. -/
def spell (mark : Mark) (beside : Trie) (c : Char) : List Char → Trie
  | [] => .branch c mark .empty beside
  | c' :: cs => .branch c .blank (spell mark .empty c' cs) beside

/-- Changes the mark of the word with a first letter and further ones. -/
def change (f : Mark → Mark) : Trie → Char → List Char → Trie
  | .empty, c, cs => spell (f .blank) .empty c cs
  | .branch d mark below beside, c, cs =>
    if c = d then
      match cs with
      | [] => .branch d (f mark) below beside
      | c' :: cs' => .branch d mark (below.change f c' cs') beside
    else if c < d then spell (f .blank) (.branch d mark below beside) c cs
    else .branch d mark below (beside.change f c cs)

/-- Changes the mark of a word; the empty word has none. -/
def modify (f : Mark → Mark) (t : Trie) (word : String) : Trie :=
  match word.toList with
  | [] => t
  | c :: cs => t.change f c cs

/-! ## Walking -/

/-- The words seen, behind some letters in reverse, with their counts. -/
def countsFrom (start : List Char) : Trie → List (String × Nat)
  | .empty => []
  | .branch c mark below beside =>
    let word := c :: start
    (if mark.count = 0 then [] else [(String.ofList word.reverse, mark.count)])
      ++ countsFrom word below ++ countsFrom start beside

/-- The words seen, in ascending order, with their counts. -/
def counts (t : Trie) : List (String × Nat) := t.countsFrom []

/-- The number of words seen. -/
def distinct : Trie → Nat
  | .empty => 0
  | .branch _ mark below beside =>
    (if mark.count = 0 then 0 else 1) + below.distinct + beside.distinct

theorem length_countsFrom (t : Trie) (start : List Char) :
    (t.countsFrom start).length = t.distinct := by
  induction t generalizing start with
  | empty => rfl
  | branch c mark below beside ihBelow ihBeside =>
    simp only [countsFrom, distinct, List.length_append, ihBelow, ihBeside]
    split <;> simp

/-- As many words are listed as there are. -/
@[simp] theorem length_counts (t : Trie) : t.counts.length = t.distinct := t.length_countsFrom []

/-! ## A single word -/

/-- A word that has been spelled is found. -/
@[simp] theorem find_spell_self (mark : Mark) (beside : Trie) (c : Char) (cs : List Char) :
    (spell mark beside c cs).find c cs = mark := by
  induction cs generalizing c beside with
  | nil => simp [spell, find]
  | cons c' cs ih => simp [spell, find, ih]

end Trie

end RepairCorpus
