/-!
# JSON values

Trees, records and settings arrive as JSON.  A value keeps the members of an object in the order
they were written, duplicates included, because which of two faults is reported depends on that
order.

A text may stop being JSON half way through.  What was read up to there still counts: an object
that names a field twice is refused for the repetition even if its text breaks off later.  So a
value can hold a `missing` leaf, which stands where the text went wrong; nothing follows it in
reading order.  Values that come from anywhere but a broken text are `whole`.

Numbers are either integers, exact within the range of a machine word, or binary fractions, which
are held as the bits of their IEEE 754 double.
-/

namespace RepairCorpus

/-- A double, held as its bits, so that equality is decidable and a signed zero keeps its sign. -/
structure Binary64 where
  bits : UInt64
  deriving DecidableEq, Inhabited

namespace Binary64

/-- The bits of a double. -/
def ofFloat (x : Float) : Binary64 := ⟨x.toBits⟩

/-- The double with these bits. -/
def toFloat (x : Binary64) : Float := Float.ofBits x.bits

/-- Whether a double is neither infinite nor no number at all. -/
def isFinite (x : Binary64) : Bool := x.toFloat.isFinite

/-- The double nearest to an integer of at most sixty-four bits. -/
def ofInt (n : Int) : Binary64 :=
  let magnitude := n.natAbs.toUInt64.toFloat
  ofFloat (if n < 0 then -magnitude else magnitude)

end Binary64

namespace Json

/-- A JSON number: an integer of at most sixty-four bits, or a double. -/
inductive Number where
  | integer (n : Int)
  | binary (x : Binary64)
  deriving DecidableEq, Inhabited

/-- The double a number denotes. -/
def Number.toBinary64 : Number → Binary64
  | .integer n => .ofInt n
  | .binary x => x

end Json

/-- A JSON value, or what could be read of one. -/
inductive Json where
  | null
  | bool (value : Bool)
  | number (value : Json.Number)
  | string (value : String)
  | array (items : List Json)
  | object (members : List (String × Json))
  /-- The place where a text stopped being JSON. -/
  | missing
  deriving Inhabited

namespace Json

/-- Whether a value is the null value. -/
def isNull : Json → Bool
  | .null => true
  | _ => false

/-- Whether a value is the place where a text stopped being JSON. -/
def isMissing : Json → Bool
  | .missing => true
  | _ => false

/-! ## Wholeness -/

mutual

/-- Whether no part of a value is missing. -/
def whole : Json → Bool
  | .array items => wholeItems items
  | .object members => wholeMembers members
  | .missing => false
  | _ => true

/-- Whether no part of any item is missing. -/
def wholeItems : List Json → Bool
  | [] => true
  | v :: vs => v.whole && wholeItems vs

/-- Whether no part of any member is missing. -/
def wholeMembers : List (String × Json) → Bool
  | [] => true
  | (_, v) :: ms => v.whole && wholeMembers ms

end

/-! ## Sorted members -/

/-- Puts a member into a list in ascending order of keys; an earlier member of the same key is
replaced. -/
def insertMember (key : String) (value : Json) : List (String × Json) → List (String × Json)
  | [] => [(key, value)]
  | (k, v) :: ms =>
    if key < k then (key, value) :: (k, v) :: ms
    else if key = k then (key, value) :: ms
    else (k, v) :: insertMember key value ms

mutual

/-- The value with the members of every object in ascending order of keys, the last one winning
among members of one key. -/
def sorted : Json → Json
  | .array items => .array (sortedItems items)
  | .object members => .object (sortedMembers [] members)
  | v => v

/-- The items, each with its members sorted. -/
def sortedItems : List Json → List Json
  | [] => []
  | v :: vs => v.sorted :: sortedItems vs

/-- Moves members one by one into a sorted list. -/
def sortedMembers (done : List (String × Json)) : List (String × Json) → List (String × Json)
  | [] => done
  | (k, v) :: ms => sortedMembers (insertMember k v.sorted done) ms

end

end Json

end RepairCorpus
