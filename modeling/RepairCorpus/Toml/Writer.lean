import RepairCorpus.Text.Digits
import RepairCorpus.Toml.Value

/-!
# Writing TOML

A document is written table by table.  Each table has a header with the names that lead to it, a
line for each of its pairs, and below them the tables in it.  An empty line stands between tables.
The pairs of the document's own table come first and have no header.

Names are written without quotes.  A document is not written if one of its names needs quotes, if
there is a list in it, or if a number does not fit into a signed machine word.
-/

namespace RepairCorpus.Toml

open RepairCorpus.Config (Setting Scalar)

/-! ## Names -/

/-- A name that needs no quotes. -/
structure Bare (name : String) : Prop where
  ne_nil : name.toList ≠ []
  chars : ∀ c ∈ name.toList, isNameChar c = true

instance (name : String) : Decidable (Bare name) :=
  decidable_of_iff (name.toList ≠ [] ∧ name.toList.all isNameChar = true)
    ⟨fun h => ⟨h.1, List.all_eq_true.mp h.2⟩, fun h => ⟨h.ne_nil, List.all_eq_true.mpr h.chars⟩⟩

/-- A key of names that need no quotes. -/
def keyText (names : List String) : List Char := ['.'].intercalate (names.map String.toList)

/-! ## Lines -/

/-- The line of a header. -/
def headerLine (path : List String) : List Char := '[' :: (keyText path ++ [']', '\n'])

/-- The line of a pair. -/
def pairLine (name : String) (chars : List Char) : List Char :=
  name.toList ++ ' ' :: '=' :: ' ' :: (chars ++ ['\n'])

/-- A scalar in writing. -/
def writeScalar? (s : Scalar) : Option (List Char) :=
  match s.text?, s.flag?, s.number? with
  | some text, _, _ => some (write text).toList
  | none, some b, _ => some (if b then "true" else "false").toList
  | none, none, some n => if n < UInt64.size / 2 then some (Text.digitsOf n) else none
  | none, none, none => none

/-- The lines of the pairs of a table. -/
def pairLines? : List (String × Setting) → Option (List Char)
  | [] => some []
  | (name, .scalar s) :: rows => do
    let chars ← writeScalar? s
    let lines ← pairLines? rows
    return pairLine name chars ++ lines
  | _ :: rows => pairLines? rows

/-! ## Tables -/

mutual

/-- The tables that are written for a setting at the end of a path: its own and those in it. -/
def tables? (path : List String) : Setting → Option (List (List Char))
  | .scalar _ => some []
  | .list _ => none
  | .table rows => do
    let lines ← pairLines? rows
    let inner ← tablesIn? path rows
    return (headerLine path ++ lines) :: inner

/-- The tables that are written for the rows of the table at the end of a path. -/
def tablesIn? (path : List String) : List (String × Setting) → Option (List (List Char))
  | [] => some []
  | (name, s) :: rows =>
    if Bare name then do
      let first ← tables? (path ++ [name]) s
      let others ← tablesIn? path rows
      return first ++ others
    else none

end

/-- The text of a document. -/
def writeDocument? : Setting → Option String
  | .table rows => do
    let lines ← pairLines? rows
    let inner ← tablesIn? [] rows
    let parts := if lines.isEmpty then inner else lines :: inner
    return String.ofList (['\n'].intercalate parts)
  | _ => none

end RepairCorpus.Toml
