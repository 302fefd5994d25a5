/-!
# Blank characters

One notion of blank runs through the whole library: a literal's source text is squeezed at its
blanks before it becomes a token, a line of tokens is counted by splitting it at blanks, and a
corpus line holding only blanks is no record.  All three use the `White_Space` property of
Unicode, so a text squeezed by one of them is never split by another.

* `isBlank`: the property, as its ten ranges of code points.
* `squeeze`: each run of blanks becomes one underscore.
* `words`: the maximal runs of other characters.
-/

namespace RepairCorpus.Text

/-! ## The property -/

/-- The code points of the `White_Space` property, as inclusive ranges in ascending order. -/
def blankRanges : List (Nat × Nat) :=
  [(0x9, 0xD), (0x20, 0x20), (0x85, 0x85), (0xA0, 0xA0), (0x1680, 0x1680), (0x2000, 0x200A),
    (0x2028, 0x2029), (0x202F, 0x202F), (0x205F, 0x205F), (0x3000, 0x3000)]

/-- A character is blank when its code point lies in one of the ranges. -/
def isBlank (c : Char) : Bool :=
  blankRanges.any fun r => r.1 ≤ c.toNat && c.toNat ≤ r.2

@[simp] theorem isBlank_space : isBlank ' ' = true := by decide

@[simp] theorem isBlank_underscore : isBlank '_' = false := by decide

/-! ## Squeezing -/

/-- Squeezes with a memory of the last character: inside a run of blanks nothing more is
written. -/
def squeezeFrom (afterBlank : Bool) : List Char → List Char
  | [] => []
  | c :: cs =>
    if isBlank c then
      if afterBlank then squeezeFrom true cs else '_' :: squeezeFrom true cs
    else c :: squeezeFrom false cs

/-- Each maximal run of blanks becomes one underscore; all other characters stay. -/
def squeeze (text : String) : String :=
  String.ofList (squeezeFrom false text.toList)

/-- No blank survives a squeeze. -/
theorem isBlank_of_mem_squeezeFrom {afterBlank : Bool} {cs : List Char} {c : Char}
    (h : c ∈ squeezeFrom afterBlank cs) : isBlank c = false := by
  induction cs generalizing afterBlank with
  | nil => simp [squeezeFrom] at h
  | cons d ds ih =>
    unfold squeezeFrom at h
    split at h
    · split at h
      · exact ih h
      · rcases List.mem_cons.mp h with rfl | h
        · exact isBlank_underscore
        · exact ih h
    · rcases List.mem_cons.mp h with rfl | h
      · simpa using ‹¬isBlank c = true›
      · exact ih h

/-! ## Words -/

/-- Splits with the word under construction: `current` holds its characters in reverse. -/
def wordsFrom (current : List Char) : List Char → List (List Char)
  | [] => if current.isEmpty then [] else [current.reverse]
  | c :: cs =>
    if isBlank c then
      if current.isEmpty then wordsFrom [] cs else current.reverse :: wordsFrom [] cs
    else wordsFrom (c :: current) cs

/-- The maximal blank-free runs of a text, in order. -/
def words (text : String) : List String :=
  (wordsFrom [] text.toList).map String.ofList

/-- Whether a text consists of blanks only. -/
def isBlankText (text : String) : Bool :=
  text.toList.all isBlank

end RepairCorpus.Text
