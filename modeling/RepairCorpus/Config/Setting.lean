import RepairCorpus.Json.Value

/-!
# Settings

A configuration file is written in one of several notations.  All of them are read into one kind
of value first, a setting, which keeps of a scalar only what it can be taken for.  In some
notations one scalar can be taken for several things: a bare `5` may be both a number and a text.
-/

namespace RepairCorpus.Config

/-- What a scalar can be taken for. -/
structure Scalar where
  /-- Its value as a whole number from zero on that fits into a machine word. -/
  number? : Option Nat
  flag? : Option Bool
  text? : Option String
  /-- Whether nothing was written, so that it can be taken for an empty table too. -/
  blank : Bool
  deriving DecidableEq, Inhabited

namespace Scalar

/-- A scalar that cannot be taken for anything asked for. -/
def unusable : Scalar := ⟨none, none, none, false⟩

/-- The bound of machine words. -/
def wordBound : Nat := UInt64.size

/-- A number; it has a value only within the range of a machine word. -/
def ofInt (n : Int) : Scalar :=
  ⟨if 0 ≤ n ∧ n < wordBound then some n.toNat else none, none, none, false⟩

/-- A truth value. -/
def ofBool (b : Bool) : Scalar := ⟨none, some b, none, false⟩

/-- A text. -/
def ofText (s : String) : Scalar := ⟨none, none, some s, false⟩

end Scalar

/-- A setting: a scalar, a list of settings, or a table of named settings. -/
inductive Setting where
  | scalar (value : Scalar)
  | list (items : List Setting)
  | table (rows : List (String × Setting))
  deriving Inhabited

namespace Setting

/-- A setting as a number. -/
def number? : Setting → Option Nat
  | .scalar s => s.number?
  | _ => none

/-- A setting as a truth value. -/
def flag? : Setting → Option Bool
  | .scalar s => s.flag?
  | _ => none

/-- A setting as a text. -/
def text? : Setting → Option String
  | .scalar s => s.text?
  | _ => none

/-- The rows of a setting that can be taken for a table. -/
def rows? : Setting → Option (List (String × Setting))
  | .table rows => some rows
  | .scalar s => if s.blank then some [] else none
  | .list _ => none

mutual

/-- A JSON value as a setting. -/
def ofJson : Json → Setting
  | .null => .scalar .unusable
  | .missing => .scalar .unusable
  | .bool b => .scalar (.ofBool b)
  | .number (.integer n) => .scalar (.ofInt n)
  | .number (.binary _) => .scalar .unusable
  | .string s => .scalar (.ofText s)
  | .array items => .list (ofItems items)
  | .object members => .table (ofMembers members)

/-- JSON values as settings. -/
def ofItems : List Json → List Setting
  | [] => []
  | v :: vs => ofJson v :: ofItems vs

/-- The members of a JSON object as the rows of a table. -/
def ofMembers : List (String × Json) → List (String × Setting)
  | [] => []
  | (key, v) :: members => (key, ofJson v) :: ofMembers members

end

end Setting

end RepairCorpus.Config
