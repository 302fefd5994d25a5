import RepairCorpus.Syntax.Fields
import RepairCorpus.Syntax.Node

/-!
# Writing trees

The document of a tree states everything: the kind, both tags and every field of the kind, with
absent parts as null.  The one exception is the field for the parts of a regular expression, which
is left out for literals that have none.
-/

namespace RepairCorpus

/-- An optional text, null when absent. -/
def optionalText : Option String → Json
  | some s => .string s
  | none => .null

/-- The document of a regular expression. -/
def Regex.toJson (r : Regex) : Json :=
  .object [("pattern", optionalText r.pattern), ("flags", optionalText r.flags)]

/-- The document of a literal's value.  There is no way to write a number that is not finite; null
stands in its place. -/
def LiteralValue.toJson : LiteralValue → Json
  | .bool b => .bool b
  | .number x => if x.isFinite then .number (.binary x) else .null
  | .text s => .string s
  | .regex r => r.toJson
  | .null => .null

/-- The document of a field whose parts are documents already, if the field is written. -/
def Field.toJson? : Field Json → Option Json
  | .node v => some v
  | .optionalNode v => some (v.getD .null)
  | .nodes vs => some (.array vs)
  | .holes vs => some (.array (vs.map (·.getD .null)))
  | .text s => some (.string s)
  | .flag b => some (.bool b)
  | .value v => some v.toJson
  | .regex r => r.map Regex.toJson

/-- The names of the two tags in a document. -/
def ownTagField : String := "change-noprop"

@[inherit_doc ownTagField]
def underlyingTagField : String := "change"

/-- The name of the kind in a document. -/
def kindField : String := "type"

namespace Node

/-- The document of a tree. -/
def toJson : Node → Json :=
  fold fun own underlying form =>
    .object <|
      [(kindField, .string form.kind.name), (ownTagField, .string own.name),
        (underlyingTagField, .string underlying.name)]
      ++ (form.map Prod.snd).toFields.filterMap fun f => f.2.toJson?.map fun v => (f.1, v)

theorem toJson_mk (own underlying : Tag) (form : Form Node) :
    toJson ⟨own, underlying, form⟩ = .object
      ([(kindField, .string form.kind.name), (ownTagField, .string own.name),
        (underlyingTagField, .string underlying.name)]
      ++ (form.map toJson).toFields.filterMap fun f => f.2.toJson?.map fun v => (f.1, v)) := by
  simp [toJson, fold_mk, Function.comp_def]

end Node

end RepairCorpus
