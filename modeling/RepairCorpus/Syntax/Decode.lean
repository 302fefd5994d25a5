import RepairCorpus.Error
import RepairCorpus.Json.Document
import RepairCorpus.Syntax.Encode

/-!
# Reading trees

A document of a tree is read in a fixed order, which decides the error when several things are
wrong with it.  At each node the tags come first, then the kind, then the kind's fields as they
appear in the document, each with everything below it, and last the fields that are missing.
Fields a kind does not have are passed over.  Naming a tag, the kind or one of the kind's fields
twice is an error; naming anything else twice is not.

A tree may also be read straight from a text.  The text's outermost tags are then read while the
rest is still unseen, so a fault in one of them wins over a place further on where the text is no
JSON at all, whereas everything else waits until the text has proved readable.
-/

namespace RepairCorpus

/-- The error of a document that is no JSON or holds a value its place does not ask for. -/
def unreadable : Error := .malformed .unreadable

/-! ## Tags and kinds -/

/-- The tag with a written form. -/
def Tag.ofText (s : String) : Except Error Tag :=
  match Tag.ofName? s with
  | some t => .ok t
  | none => .error (.malformed (.unknownTag s))

/-- Reads a tag: its written form, alone or as the only key of an object.  What such a key stands
for must be void. -/
def Tag.ofJsonWith (isVoid : Json → Bool) : Json → Except Error Tag
  | .string s => Tag.ofText s
  | .object [(key, v)] => do
    let t ← Tag.ofText key
    if isVoid v then return t else throw unreadable
  | _ => .error unreadable

/-- Reads a tag of the outermost node. -/
def Tag.ofJson : Json → Except Error Tag := Tag.ofJsonWith Json.isNull

/-- Reads a tag of any other node, where an empty object is as void as null. -/
def Tag.ofPart : Json → Except Error Tag :=
  Tag.ofJsonWith fun v => match v with
    | .null => true
    | .object [] => true
    | _ => false

/-- Reads a tag from a text that has been seen up to here only: the first key of an object is
judged before it is known whether it is the only one. -/
def Tag.ofUnfinished : Json → Except Error Tag
  | .object (("", .missing) :: _) => .error unreadable
  | .object ((key, v) :: rest) => do
    let t ← Tag.ofText key
    if v.isNull && rest.isEmpty then return t else throw unreadable
  | v => Tag.ofJson v

/-- The two tags of a node as far as they have been read. -/
structure FoundTags where
  own : Option Tag
  underlying : Option Tag
  deriving DecidableEq, Inhabited

/-- Reads the tags among members with a given reader of single tags. -/
def FoundTags.readWith (tag : Json → Except Error Tag) (found : FoundTags) :
    List (String × Json) → Except Error FoundTags
  | [] => .ok found
  | (key, v) :: members => do
    if key = ownTagField then
      if found.own.isSome then throw (.malformed (.duplicateField key))
      readWith tag { found with own := some (← tag v) } members
    else if key = underlyingTagField then
      if found.underlying.isSome then throw (.malformed (.duplicateField key))
      readWith tag { found with underlying := some (← tag v) } members
    else readWith tag found members

/-- Reads the tags among the members of the outermost node. -/
def FoundTags.read : List (String × Json) → Except Error FoundTags :=
  FoundTags.readWith Tag.ofJson ⟨none, none⟩

/-- Reads the tags among the members of any other node. -/
def FoundTags.readPart : List (String × Json) → Except Error FoundTags :=
  FoundTags.readWith Tag.ofPart ⟨none, none⟩

/-- Reads a kind: its written form, or its position among the kinds. -/
def Kind.ofJson : Json → Except Error Kind
  | .string s => .ok (.ofName s)
  | .number (.integer n) => if 0 ≤ n then .ok (.ofIndex n.toNat) else .error unreadable
  | _ => .error unreadable

/-- Reads the kind among members, when `found` has been read already. -/
def Kind.readFrom (found : Option Kind) : List (String × Json) → Except Error Kind
  | [] =>
    match found with
    | some k => .ok k
    | none => .error (.malformed (.missingField kindField))
  | (key, v) :: members => do
    if key = kindField then
      if found.isSome then throw (.malformed (.duplicateField key))
      readFrom (some (← Kind.ofJson v)) members
    else readFrom found members

/-! ## Literals -/

/-- Reads an optional text, null when absent. -/
def readOptionalText : Json → Except Error (Option String)
  | .null => .ok none
  | .string s => .ok (some s)
  | _ => .error unreadable

/-- The parts of a regular expression as far as they have been read. -/
structure FoundRegex where
  pattern : Option (Option String)
  flags : Option (Option String)

/-- Reads the parts of a regular expression among members. -/
def FoundRegex.read (found : FoundRegex) : List (String × Json) → Except Error Regex
  | [] => .ok ⟨found.pattern.join, found.flags.join⟩
  | (key, v) :: members => do
    if key = "pattern" then
      if found.pattern.isSome then throw (.malformed (.duplicateField key))
      read { found with pattern := some (← readOptionalText v) } members
    else if key = "flags" then
      if found.flags.isSome then throw (.malformed (.duplicateField key))
      read { found with flags := some (← readOptionalText v) } members
    else read found members

/-- Reads a regular expression: an object of its parts, or a list of them in order. -/
def Regex.ofJson : Json → Except Error Regex
  | .object members => FoundRegex.read ⟨none, none⟩ members
  | .array [] => .ok ⟨none, none⟩
  | .array [p] => return ⟨← readOptionalText p, none⟩
  | .array [p, f] => return ⟨← readOptionalText p, ← readOptionalText f⟩
  | _ => .error unreadable

/-- Reads a literal's value.  A regular expression that cannot be read makes the whole value
unreadable, whatever is wrong with it. -/
def LiteralValue.ofJson (v : Json) : Except Error LiteralValue :=
  match v with
  | .bool b => .ok (.bool b)
  | .number n => .ok (.number n.toBinary64)
  | .string s => .ok (.text s)
  | .null => .ok .null
  | _ =>
    match Regex.ofJson v with
    | .ok r => .ok (.regex r)
    | .error _ => .error unreadable

/-- Reads the parts of a regular expression, which may be absent. -/
def Regex.ofOptionalJson (v : Json) : Except Error (Option Regex) :=
  if v.isNull then .ok none else (Regex.ofJson v).map some

/-- Reads a text. -/
def readText : Json → Except Error String
  | .string s => .ok s
  | _ => .error unreadable

/-- Reads a flag. -/
def readFlag : Json → Except Error Bool
  | .bool b => .ok b
  | _ => .error unreadable

/-! ## Nodes -/

namespace Node

/-- Makes a node of what its members say. -/
def assemble (tags : FoundTags) (kind : Kind) (fields : List (String × Field Node)) :
    Except Error Node :=
  match Form.ofFields kind fields with
  | .ok form => .ok ⟨tags.own.getD .unknown, tags.underlying.getD .unknown, form⟩
  | .error name => .error (.malformed (.missingField name))

mutual

/-- Reads a tree that is part of another one. -/
def ofPart : Json → Except Error Node
  | .object members => do
    let tags ← FoundTags.readPart members
    let kind ← Kind.readFrom none members
    let fields ← readFields kind [] members
    assemble tags kind fields
  | _ => .error unreadable

/-- Reads the fields of a kind among members; `seen` are the names read before. -/
def readFields (kind : Kind) (seen : List String) :
    List (String × Json) → Except Error (List (String × Field Node))
  | [] => .ok []
  | (key, v) :: members =>
    match kind.fieldSort? key with
    | none => readFields kind seen members
    | some sort =>
      if key ∈ seen then .error (.malformed (.duplicateField key))
      else do
        let field ← match sort with
          | .node => Field.node <$> ofPart v
          | .optionalNode =>
            if v.isNull then pure (.optionalNode none) else (.optionalNode ∘ some) <$> ofPart v
          | .nodes =>
            match v with
            | .array items => Field.nodes <$> readList items
            | _ => throw unreadable
          | .holes =>
            match v with
            | .array items => Field.holes <$> readHoles items
            | _ => throw unreadable
          | .text => Field.text <$> readText v
          | .flag => Field.flag <$> readFlag v
          | .value => Field.value <$> LiteralValue.ofJson v
          | .regex => Field.regex <$> Regex.ofOptionalJson v
        return (key, field) :: (← readFields kind (key :: seen) members)

/-- Reads a list of trees. -/
def readList : List Json → Except Error (List Node)
  | [] => .ok []
  | v :: vs => do
    let n ← ofPart v
    return n :: (← readList vs)

/-- Reads a list of trees in which null stands for a hole. -/
def readHoles : List Json → Except Error (List (Option Node))
  | [] => .ok []
  | v :: vs => do
    let n ← if v.isNull then pure none else some <$> ofPart v
    return n :: (← readHoles vs)

end

/-- Reads a tree from its document.  The tags of the outermost node are the only ones that are
read strictly. -/
def ofJson : Json → Except Error Node
  | .object members => do
    let _ ← FoundTags.read members
    ofPart (.object members)
  | _ => .error unreadable

/-- Reads a tree from the text of its document. -/
def ofText (text : String) : Except Error Node := do
  let document := Json.read (some Json.nestingLimit) text
  match document.value with
  | .object members =>
    let _ ← FoundTags.readWith Tag.ofUnfinished ⟨none, none⟩ members
    if document.value.whole then
      let n ← ofJson document.value
      if document.closed then return n else throw unreadable
    else throw unreadable
  | _ => throw unreadable

end Node

end RepairCorpus
