import RepairCorpus.Proofs.Json.Members
import RepairCorpus.Syntax.Fields

/-!
# Fields and their parts

A form taken apart into named fields has the same parts, and its fields have the names and the sorts that its
kind says.

* `Form.children_eq_parts`: the parts of a form are the parts of its fields.
* `Form.ofFields_writtenFields`: **what is left out in writing is the default in reading.**
* `Form.fieldSort?_kind`: the fields of a form are the ones its kind has.
-/

namespace RepairCorpus

open Json (keys)

variable {α β : Type}

/-! ## Parts -/

theorem Form.mem_present {x : α} {xs : List (Option α)} : x ∈ Form.present xs ↔ some x ∈ xs := by
  induction xs with
  | nil => exact iff_of_false List.not_mem_nil List.not_mem_nil
  | cons o xs ih =>
    cases o with
    | none => rw [Form.present_none_cons, ih, List.mem_cons, or_iff_right (Option.some_ne_none x)]
    | some y =>
      rw [Form.present_some_cons, List.mem_cons, List.mem_cons, ih, Option.some.injEq]

namespace Field

/-- Changes every part of a field's content. -/
def map (g : α → β) : Field α → Field β
  | .node x => .node (g x)
  | .optionalNode x => .optionalNode (x.map g)
  | .nodes xs => .nodes (xs.map g)
  | .holes xs => .holes (xs.map (Option.map g))
  | .text s => .text s
  | .flag b => .flag b
  | .value v => .value v
  | .regex r => .regex r

/-- The parts of a field's content that are present. -/
def parts : Field α → List α
  | .node x => [x]
  | .optionalNode x => x.toList
  | .nodes xs => xs
  | .holes xs => Form.present xs
  | .text _ => []
  | .flag _ => []
  | .value _ => []
  | .regex _ => []

end Field

namespace Form

theorem toFields_map (g : α → β) (form : Form α) :
    (form.map g).toFields = form.toFields.map fun f => (f.1, f.2.map g) := by
  cases form <;>
    simp only [map, mapIdx, mapIdx_const, mapPresentIdx_const, toFields, Field.map, List.map_cons,
      List.map_nil]

/-- The parts of a form are the parts of its fields. -/
theorem children_eq_parts (form : Form α) :
    form.children = form.toFields.flatMap fun f => f.2.parts := by
  cases form <;>
    simp only [children, toFields, Field.parts, List.flatMap_cons, List.flatMap_nil, List.nil_append,
      List.append_nil, List.append_assoc, List.cons_append]

end Form

/-! ## Names -/

theorem Kind.nodup_fields (kind : Kind) : (keys kind.fields).Nodup := by
  have hall : ∀ kind ∈ Kind.all, (keys kind.fields).Nodup := by decide
  exact hall kind kind.mem_all

theorem Form.keys_toFields (form : Form α) : keys form.toFields = keys form.kind.fields := by
  rw [← toFields_sorts, keys, keys, List.map_map]
  rfl

theorem Form.nodup_toFields (form : Form α) : (keys form.toFields).Nodup := by
  rw [keys_toFields]
  exact form.kind.nodup_fields

theorem Form.fieldSort?_kind (form : Form α) (key : String) :
    form.kind.fieldSort? key = (form.toFields.lookup key).map Field.sort := by
  rw [Kind.fieldSort?, ← toFields_sorts, Json.lookup_map_values]

/-! ## Written fields -/

/-- A field that is written, which is every field but that of absent parts of a regular expression. -/
def Field.written? : Field α → Option (Field α)
  | .regex none => none
  | f => some f

/-- The fields that are written. -/
def Form.writtenFields (form : Form α) : List (String × Field α) :=
  form.toFields.filterMap fun f => f.2.written?.map fun g => (f.1, g)

/-- A form is made of the fields that are written: what is left out is the default. -/
theorem Form.ofFields_writtenFields (form : Form α) :
    ofFields form.kind form.writtenFields = .ok form := by
  cases form with
  | literal value raw regex => cases regex <;> rfl
  | _ => rfl

end RepairCorpus
