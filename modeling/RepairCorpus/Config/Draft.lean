import RepairCorpus.Config.Setting

/-!
# Drafts of a configuration

A draft is a configuration as it was written, before anything has been checked.  It starts from
the defaults, and the settings of a file are put in one by one: a table by the names of its rows,
a list by position.  Names that are not known are passed over; a known name must not be given
twice in one table.

Notations differ in one point.  In some of them a list may be longer than there are places to
fill, and what is too much is passed over.
-/

namespace RepairCorpus.Config

/-- A configuration before it is checked. -/
structure Draft where
  vocabularySize : Nat
  uniqueIdentifiers : Bool
  /-- Placeholders by the names of kinds, as rows with different names in ascending order. -/
  placeholders : List (String × String)
  buckets : Nat
  folds : Nat
  maxLength : Nat
  sampleEvery : Nat
  deriving DecidableEq, Inhabited

/-! ## Filling in -/

/-- A place in a draft: its name, and how a setting is put there. -/
structure Place where
  name : String
  fill : Draft → Setting → Option Draft

/-- Fills in the rows of a table; `used` are the places filled already. -/
def fillRows (places : List Place) (used : List String) (d : Draft) :
    List (String × Setting) → Option Draft
  | [] => some d
  | (name, s) :: rows =>
    match places.find? fun p => p.name == name with
    | none => fillRows places used d rows
    | some p =>
      if used.contains name then none
      else (p.fill d s).bind fun d => fillRows places (name :: used) d rows

/-- Fills in the items of a list by position. -/
def fillItems (surplus : Bool) (d : Draft) : List Place → List Setting → Option Draft
  | _, [] => some d
  | [], _ :: _ => if surplus then some d else none
  | p :: places, s :: items => (p.fill d s).bind fun d => fillItems surplus d places items

/-- Fills in a setting, which must be a list or a table. -/
def fill (surplus : Bool) (places : List Place) (d : Draft) (s : Setting) : Option Draft :=
  match s with
  | .list items => fillItems surplus d places items
  | s => s.rows?.bind fun rows => fillRows places [] d rows

/-! ## Placeholders -/

/-- Puts a row into a table with ascending names, in place of a row with the same name. -/
def putRow (name text : String) : List (String × String) → List (String × String)
  | [] => [(name, text)]
  | row :: rows =>
    if name = row.1 then (name, text) :: rows
    else if name < row.1 then (name, text) :: row :: rows
    else row :: putRow name text rows

/-- Reads a table of texts; of rows with one name the last counts. -/
def textRows (read : List (String × String)) : List (String × Setting) →
    Option (List (String × String))
  | [] => some read
  | (name, s) :: rows => s.text?.bind fun text => textRows (putRow name text read) rows

/-! ## The places -/

/-- A place for a number. -/
def numberPlace (name : String) (put : Draft → Nat → Draft) : Place :=
  ⟨name, fun d s => s.number?.map (put d)⟩

/-- The places of the section on mining. -/
def vocabularyPlaces : List Place :=
  [numberPlace "size" fun d n => { d with vocabularySize := n }]

/-- The places of the section on abstraction. -/
def abstractionPlaces : List Place :=
  [⟨"unique_identifiers", fun d s => s.flag?.map fun b => { d with uniqueIdentifiers := b }⟩,
    ⟨"placeholders", fun d s =>
      (s.rows?.bind (textRows [])).map fun rows => { d with placeholders := rows }⟩]

/-- The places of the section on the data set. -/
def datasetPlaces : List Place :=
  [numberPlace "buckets" fun d n => { d with buckets := n },
    numberPlace "folds" fun d n => { d with folds := n },
    numberPlace "max_length" fun d n => { d with maxLength := n },
    numberPlace "nominal_sample_every" fun d n => { d with sampleEvery := n }]

/-- The sections. -/
def sections (surplus : Bool) : List Place :=
  [⟨"vocabulary", fill surplus vocabularyPlaces⟩, ⟨"abstraction", fill surplus abstractionPlaces⟩,
    ⟨"dataset", fill surplus datasetPlaces⟩]

namespace Draft

/-- Reads a draft from a setting, on top of another draft. -/
def ofSetting? (surplus : Bool) (start : Draft) (s : Setting) : Option Draft :=
  fill surplus (sections surplus) start s

end Draft

end RepairCorpus.Config
