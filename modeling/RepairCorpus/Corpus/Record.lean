import RepairCorpus.Corpus.Category
import RepairCorpus.Json.Excerpt
import RepairCorpus.Syntax.Decode

/-!
# Corpus records

A corpus has one record per line.  A record tells of one file touched by a commit: the project it
belongs to and the slices of the file that changed, each as a pair of trees before and after.

Records and pairs are objects with named fields, or lists of the fields' values in declaration
order.  Members that are no fields are passed over: their values only have to follow the grammar of JSON.
Naming a field twice is an error.  Every field may be left out, except the project.

The trees of a pair are kept as documents.  They are read only when the pair is worked on, so that
a tree that makes no sense spoils its pair and not the record.
-/

namespace RepairCorpus

/-! ## Fields -/

/-- A field of a structure: its name, and how its value is put into the structure. -/
structure FieldReader (α : Type) where
  name : String
  read : α → Json → Except Error α

/-- Whether a key names none of these fields. -/
def isUnknown {α : Type} (fields : List (FieldReader α)) (key : String) : Bool :=
  fields.all fun f => f.name != key

/-- A structure, with the names of the fields that were given. -/
structure Given (α : Type) where
  value : α
  names : List String
  deriving Inhabited

/-- Reads a structure from members.  A member that is no field is passed over, unless the text breaks off
in it. -/
def readMembers {α : Type} (fields : List (FieldReader α)) (g : Given α) :
    List (String × Json) → Except Error (Given α)
  | [] => .ok g
  | (key, v) :: members =>
    match fields.find? fun f => f.name == key with
    | none => if v.isMissing then .error unreadable else readMembers fields g members
    | some f => do
      if key ∈ g.names then throw (.malformed (.duplicateField key))
      let value ← f.read g.value v
      readMembers fields ⟨value, key :: g.names⟩ members

/-- Reads a structure from the values of its first fields; there must not be more values than
fields. -/
def readItems {α : Type} (g : Given α) : List (FieldReader α) → List Json → Except Error (Given α)
  | _, [] => .ok g
  | [], _ :: _ => .error unreadable
  | f :: fields, v :: vs => do
    let value ← f.read g.value v
    readItems ⟨value, f.name :: g.names⟩ fields vs

/-- Reads a structure in either form, starting from its defaults. -/
def readStructure {α : Type} (fields : List (FieldReader α)) (start : α) :
    Json → Except Error (Given α)
  | .object members => readMembers fields ⟨start, []⟩ members
  | .array items => readItems ⟨start, []⟩ fields items
  | _ => .error unreadable

/-! ## Pairs -/

/-- One changed slice of a file, before and after the commit. -/
structure SlicePair where
  before : Option String
  after : Option String
  beforeTree : Option Json
  afterTree : Option Json
  type : PairType
  labels : List String
  deriving Inhabited

/-- Reads the type of a pair: its written form, alone or as the only key of an object. -/
def PairType.ofJson : Json → Except Error PairType
  | .string s => .ok (.ofName s)
  | .object [(key, v)] => if v.isNull then .ok (.ofName key) else .error unreadable
  | _ => .error unreadable

/-- Reads a list of texts. -/
def readTexts : List Json → Except Error (List String)
  | [] => .ok []
  | v :: vs => do
    let s ← readText v
    return s :: (← readTexts vs)

/-- Reads the document of a tree without looking into it.  Of fields with one name the last
counts. -/
def readTree (v : Json) : Except Error (Option Json) :=
  if !v.whole then .error unreadable
  else if v.isNull then .ok none
  else .ok (some v.sorted)

namespace SlicePair

/-- A pair with nothing given. -/
def empty : SlicePair := ⟨none, none, none, none, .other, []⟩

/-- The fields of a pair, in declaration order. -/
def fields : List (FieldReader SlicePair) :=
  [⟨"before", fun p v => return { p with before := ← readOptionalText v }⟩,
    ⟨"after", fun p v => return { p with after := ← readOptionalText v }⟩,
    ⟨"before-ast", fun p v => return { p with beforeTree := ← readTree v }⟩,
    ⟨"after-ast", fun p v => return { p with afterTree := ← readTree v }⟩,
    ⟨"type", fun p v => return { p with type := ← PairType.ofJson v }⟩,
    ⟨"labels", fun p v =>
      match v with
      | .array items => return { p with labels := ← readTexts items }
      | _ => throw unreadable⟩]

/-- Reads a pair. -/
def ofJson (v : Json) : Except Error SlicePair :=
  (readStructure fields empty v).map Given.value

/-- Whether a pair is labelled as a repair made by people. -/
def isRepair (p : SlicePair) : Bool := p.labels.contains "REPAIR"

/-- The tree before the commit, if the slice existed. -/
def before? (p : SlicePair) : Except Error (Option Node) :=
  match p.beforeTree with
  | none => .ok none
  | some v => (Node.ofJson v).map some

/-- The tree after the commit, which every pair must have. -/
def requiredAfter (p : SlicePair) : Except Error Node :=
  match p.afterTree with
  | none => .error (.malformed .noAfterTree)
  | some v => Node.ofJson v

end SlicePair

/-- Reads a list of pairs. -/
def readPairs : List Json → Except Error (List SlicePair)
  | [] => .ok []
  | v :: vs => do
    let p ← SlicePair.ofJson v
    return p :: (← readPairs vs)

/-! ## Records -/

/-- One file touched by a commit. -/
structure Record where
  project : String
  url : String
  file : String
  pairs : List SlicePair
  deriving Inhabited

namespace Record

/-- The field that must be given. -/
def projectField : String := "projectID"

/-- The field with the pairs. -/
def pairsField : String := "sliceChangePair"

/-- The fields of a record, in declaration order. -/
def fields : List (FieldReader Record) :=
  [⟨projectField, fun r v => return { r with project := ← readText v }⟩,
    ⟨"url", fun r v => return { r with url := ← readText v }⟩,
    ⟨"fileName", fun r v => return { r with file := ← readText v }⟩,
    ⟨pairsField, fun r v =>
      match v with
      | .array items => return { r with pairs := ← readPairs items }
      | _ => throw unreadable⟩]

/-- Reads a record.  A list without values cannot say which field is missing. -/
def ofJson (v : Json) : Except Error Record := do
  let g ← readStructure fields ⟨"", "", "", []⟩ v
  if projectField ∈ g.names then return g.value
  else
    match v with
    | .array _ => throw unreadable
    | _ => throw (.malformed (.missingField projectField))

/-- Whether a member of a line is passed over, namely if it is no field of the record or of the pair that it
stands in.  What is open around its object tells which of them that is. -/
def passes (frames : List Json.Frame) (key : String) : Bool :=
  match frames with
  | [] => isUnknown fields key
  | [.array _, .member _ field] => field == pairsField && isUnknown SlicePair.fields key
  | [.array _, .array items] =>
    fields[items.length]?.map FieldReader.name == some pairsField && isUnknown SlicePair.fields key
  | _ => false

/-- The document of a line, without what is passed over. -/
def document (limit : Option Nat) (line : String) : Json.Document := Json.readExcerpt limit passes line

/-- Reads a line of a corpus. -/
def ofLine (line : String) : Except Error Record := do
  let document := document (some Json.nestingLimit) line
  let r ← ofJson document.value
  if document.closed then return r else throw unreadable

end Record

end RepairCorpus
