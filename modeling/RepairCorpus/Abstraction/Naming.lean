import RepairCorpus.Abstraction.Depth

/-!
# Placeholders by name

Outside the library, a map of placeholders is a table from the names of kinds to placeholders.  A
table with a name that no kind has is refused as a whole.

A map has one table in which the names ascend, and reading that table gives the map back.
-/

namespace RepairCorpus

/-- A name in a table of placeholders that no kind has. -/
structure UnknownKind where
  name : String
  deriving DecidableEq, Inhabited

/-- The wording for an unknown name. -/
def UnknownKind.message (u : UnknownKind) : String :=
  "Unknown node kind '" ++ u.name ++ "' in placeholders"

namespace PlaceholderMap

/-- Hides nothing. -/
def empty : PlaceholderMap := fun _ => none

/-- Hides a kind behind a placeholder. -/
def set (m : PlaceholderMap) (k : Kind) (placeholder : String) : PlaceholderMap :=
  fun j => if j = k then some placeholder else m j

/-- Adds the rows of a table in order; the first unknown name is reported. -/
def addNames (m : PlaceholderMap) : List (String × String) → Except UnknownKind PlaceholderMap
  | [] => .ok m
  | (name, placeholder) :: rows =>
    match Kind.ofName? name with
    | some k => (m.set k placeholder).addNames rows
    | none => .error ⟨name⟩

/-- The map of a table. -/
def ofNames (rows : List (String × String)) : Except UnknownKind PlaceholderMap :=
  empty.addNames rows

/-- The rows of a map for some kinds. -/
def rowsFor (m : PlaceholderMap) (kinds : List Kind) : List (Kind × String) :=
  kinds.filterMap fun k => (m k).map fun placeholder => (k, placeholder)

/-- The kinds in ascending order of their names. -/
def kindsByName : List Kind := Kind.all.mergeSort fun j k => j.name ≤ k.name

/-- The table of a map, names ascending. -/
def toNames (m : PlaceholderMap) : List (String × String) :=
  (m.rowsFor kindsByName).map fun row => (row.1.name, row.2)

@[simp] theorem addNames_nil (m : PlaceholderMap) : m.addNames [] = .ok m := rfl

theorem set_apply (m : PlaceholderMap) (k j : Kind) (placeholder : String) :
    m.set k placeholder j = if j = k then some placeholder else m j := rfl

end PlaceholderMap

end RepairCorpus
