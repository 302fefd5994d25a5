import RepairCorpus.Config.Setting

/-!
# Tables under construction

A TOML document builds up its tables piece by piece, and whether a piece may be added depends on
how the table has come about: by a header of its own, by a header further down that passes
through it, or by a key with dots.  A table of the last two sorts is only implied.

* A header may open a table that does not exist or that is implied by another header.
* A dotted key may pass through implied tables, but it may add to a table only if that table has
  itself come about by a dotted key.
* A header in double brackets adds a table to a list of tables, and headers further down that pass
  through the list mean its last table.
-/

namespace RepairCorpus.Toml

open RepairCorpus.Config (Setting)

/-- How a table has come about. -/
inductive Origin where
  /-- By its own header; so has the table of the whole document. -/
  | header
  /-- By a header that passes through. -/
  | passed
  /-- By a dotted key. -/
  | dotted
  deriving DecidableEq, Inhabited

/-- What a name stands for in a table under construction. -/
inductive Item where
  | value (setting : Setting)
  | table (origin : Origin) (rows : List (String × Item))
  /-- A list of tables, of which only the last can grow. -/
  | tables (finished : List Setting) (last : List (String × Item))
  deriving Inhabited

/-- The rows of a table under construction. -/
abbrev Rows := List (String × Item)

namespace Rows

/-- Puts an item under a name, in place of one that may be there. -/
def put (name : String) (item : Item) : Rows → Rows
  | [] => [(name, item)]
  | row :: rows => if row.1 = name then (name, item) :: rows else row :: put name item rows

end Rows

mutual

/-- An item as a setting. -/
def Item.toSetting : Item → Setting
  | .value s => s
  | .table _ rows => .table (settingsOf rows)
  | .tables finished last => .list (finished ++ [.table (settingsOf last)])

/-- Rows as the rows of a setting. -/
def settingsOf : List (String × Item) → List (String × Setting)
  | [] => []
  | (name, item) :: rows => (name, item.toSetting) :: settingsOf rows

end

namespace Rows

/-- Changes the table at the end of a path of names.  Tables that are missing on the way come
about; `byKey` says that the way is that of a dotted key.  The change is told how the table has
come about. -/
def changeAt (byKey : Bool) (change : Origin → Rows → Option Rows) :
    List String → Origin → Rows → Option Rows
  | [], origin, rows => change origin rows
  | name :: path, _, rows =>
    match rows.lookup name with
    | none =>
      let origin := if byKey then Origin.dotted else .passed
      (changeAt byKey change path origin []).map fun inner => put name (.table origin inner) rows
    | some (.value _) => none
    | some (.table origin inner) =>
      if byKey ∧ origin = .header then none
      else (changeAt byKey change path origin inner).map fun inner =>
        put name (.table origin inner) rows
    | some (.tables finished last) =>
      (changeAt byKey change path .header last).map fun last =>
        put name (.tables finished last) rows

/-- Adds a value under a name that is free. -/
def addNew (name : String) (item : Item) (rows : Rows) : Option Rows :=
  match rows.lookup name with
  | none => some (put name item rows)
  | some _ => none

/-- Adds a value under a dotted key, given as the names in front and the last name. -/
def addPair (path : List String) (name : String) (item : Item) (rows : Rows) : Option Rows :=
  changeAt true
    (fun origin inner =>
      if path = [] ∨ origin = .dotted then addNew name item inner else none)
    path .header rows

/-- Opens a table under its header. -/
def openTable (path : List String) (name : String) (rows : Rows) : Option Rows :=
  changeAt false
    (fun _ inner =>
      match inner.lookup name with
      | none => some (put name (.table .header []) inner)
      | some (.table .passed below) => some (put name (.table .header below) inner)
      | some _ => none)
    path .header rows

/-- Opens the next table of a list of tables under its header. -/
def openNext (path : List String) (name : String) (rows : Rows) : Option Rows :=
  changeAt false
    (fun _ inner =>
      match inner.lookup name with
      | none => some (put name (.tables [] []) inner)
      | some (.tables finished last) =>
        some (put name (.tables (finished ++ [.table (settingsOf last)]) []) inner)
      | some _ => none)
    path .header rows

/-- Changes the table that was opened last. -/
def changeOpened (path : List String) (change : Rows → Option Rows) (rows : Rows) : Option Rows :=
  changeAt false (fun _ inner => change inner) path .header rows

end Rows

end RepairCorpus.Toml
