import RepairCorpus.Proofs.Results
import RepairCorpus.Proofs.Syntax.FieldParts

/-!
# Fields that may be left out

A form is put together from the fields that are given and from defaults.  What the default of a field is, and
whether it has one at all, is a matter of its kind and its name: most defaults go by the sort of the field,
and three fields have a default of their own.

* `Kind.default?`: the default of a field.  A field without one is required.
* `Kind.default?_cases`: where it comes from.
* `Kind.content?`: what is given for a field, or its default.
* `Form.toFields_ofFields`: **putting a form together is gathering the contents of its fields**, up to the
  first one that has none.
* `Form.ofFields_eq_ok_iff`, `Form.exists_ofFields`, `Form.ofFields_eq_error`: when that succeeds, and with
  which form, and what is missing otherwise.
-/

namespace RepairCorpus

variable {α : Type}

/-! ## Defaults -/

/-- The default of a field of some sort, where its kind does not say otherwise. -/
def FieldSort.default? : FieldSort → Option (Field α)
  | .optionalNode => some (.optionalNode none)
  | .flag => some (.flag false)
  | .value => some (.value .null)
  | .regex => some (.regex none)
  | .node | .nodes | .holes | .text => none

/-- The default of a kind's field. -/
def Kind.default? (kind : Kind) (name : String) : Option (Field α) :=
  if kind = .newExpression ∧ name = "arguments" then some (.nodes [])
  else if kind = .property ∧ name = "kind" then some (.text "init")
  else if kind = .unaryExpression ∧ name = "prefix" then some (.flag true)
  else (kind.fieldSort? name).bind FieldSort.default?

/-- **Where a default comes from**: three fields have one of their own, the others that of their sort. -/
theorem Kind.default?_cases {kind : Kind} {name : String} {d : Field α} (h : kind.default? name = some d) :
    (kind = .newExpression ∧ name = "arguments") ∧ d = .nodes [] ∨
      (kind = .property ∧ name = "kind") ∧ d = .text "init" ∨
      (kind = .unaryExpression ∧ name = "prefix") ∧ d = .flag true ∨
      ∃ sort, kind.fieldSort? name = some sort ∧ sort.default? = some d := by
  rw [default?] at h
  split at h
  next heq => exact .inl ⟨heq, (Option.some.inj h).symm⟩
  next =>
    split at h
    next heq => exact .inr (.inl ⟨heq, (Option.some.inj h).symm⟩)
    next =>
      split at h
      next heq => exact .inr (.inr (.inl ⟨heq, (Option.some.inj h).symm⟩))
      next => exact .inr (.inr (.inr (Option.bind_eq_some_iff.mp h)))

/-- A default has the sort of the field. -/
theorem Kind.sort_of_default? {kind : Kind} {name : String} {sort : FieldSort} {d : Field α}
    (hsort : kind.fieldSort? name = some sort) (h : kind.default? name = some d) : d.sort = sort := by
  obtain ⟨⟨rfl, rfl⟩, rfl⟩ | ⟨⟨rfl, rfl⟩, rfl⟩ | ⟨⟨rfl, rfl⟩, rfl⟩ | ⟨sort', hsort', hd⟩ := default?_cases h
  · exact Option.some.inj hsort
  · exact Option.some.inj hsort
  · exact Option.some.inj hsort
  · cases hsort.symm.trans hsort'
    cases sort <;> cases hd <;> rfl

/-- Defaults have no parts. -/
theorem Kind.parts_of_default? {kind : Kind} {name : String} {d : Field α}
    (h : kind.default? name = some d) : d.parts = [] := by
  obtain ⟨-, rfl⟩ | ⟨-, rfl⟩ | ⟨-, rfl⟩ | ⟨sort, -, hd⟩ := default?_cases h
  · rfl
  · rfl
  · rfl
  · cases sort <;> cases hd <;> rfl

/-- What is given for a field, if it is of the right sort, or else its default. -/
def Kind.content? (kind : Kind) (fields : List (String × Field α)) (f : String × FieldSort) :
    Option (Field α) :=
  ((fields.lookup f.1).filter fun c => c.sort = f.2).or (kind.default? f.1)

namespace Form

/-! ## Gathering -/

/-- A field that is given and of the right sort, or else the default; its name is the error if there is
neither. -/
def readOr (fields : List (String × Field α)) (name : String) (sort : FieldSort)
    (other? : Option (Field α)) : Except String (Field α) :=
  match ((fields.lookup name).filter fun c => c.sort = sort).or other? with
  | some c => .ok c
  | none => .error name

/-- The contents of fields, up to the first one without. -/
def gather (kind : Kind) (fields : List (String × Field α)) :
    List (String × FieldSort) → Except String (List (String × Field α))
  | [] => .ok []
  | f :: fs =>
    (readOr fields f.1 f.2 (kind.default? f.1)).bind fun c => (gather kind fields fs).map ((f.1, c) :: ·)

section Readers

variable {kind : Kind} {fields : List (String × Field α)} {name s : String} {b : Bool}

theorem readOr_node :
    readOr fields name .node none = (readNode fields name).map Field.node := by
  rw [readOr, readNode]
  cases fields.lookup name with
  | none => rfl
  | some c => cases c <;> rfl

theorem readOr_optionalNode :
    readOr fields name .optionalNode (some (.optionalNode none)) =
      (readOptional fields name).map Field.optionalNode := by
  rw [readOr, readOptional]
  cases fields.lookup name with
  | none => rfl
  | some c => cases c <;> rfl

theorem readOr_nodes :
    readOr fields name .nodes none = (readNodes fields name).map Field.nodes := by
  rw [readOr, readNodes]
  cases fields.lookup name with
  | none => rfl
  | some c => cases c <;> rfl

theorem readOr_nodesOrNone :
    readOr fields name .nodes (some (.nodes [])) = (readNodesOrNone fields name).map Field.nodes := by
  rw [readOr, readNodesOrNone]
  cases fields.lookup name with
  | none => rfl
  | some c => cases c <;> rfl

theorem readOr_holes :
    readOr fields name .holes none = (readHoles fields name).map Field.holes := by
  rw [readOr, readHoles]
  cases fields.lookup name with
  | none => rfl
  | some c => cases c <;> rfl

theorem readOr_text :
    readOr fields name .text none = (readText fields name).map Field.text := by
  rw [readOr, readText]
  cases fields.lookup name with
  | none => rfl
  | some c => cases c <;> rfl

theorem readOr_textOr :
    readOr fields name .text (some (.text s)) = (readTextOr fields name s).map Field.text := by
  rw [readOr, readTextOr]
  cases fields.lookup name with
  | none => rfl
  | some c => cases c <;> rfl

theorem readOr_flag :
    readOr fields name .flag (some (.flag b)) = (readFlagOr fields name b).map Field.flag := by
  rw [readOr, readFlagOr]
  cases fields.lookup name with
  | none => rfl
  | some c => cases c <;> rfl

theorem readOr_value :
    readOr fields name .value (some (.value .null)) = (readValue fields name).map Field.value := by
  rw [readOr, readValue]
  cases fields.lookup name with
  | none => rfl
  | some c => cases c <;> rfl

theorem readOr_regex :
    readOr fields name .regex (some (.regex none)) = (readRegex fields name).map Field.regex := by
  rw [readOr, readRegex]
  cases fields.lookup name with
  | none => rfl
  | some c => cases c <;> rfl

end Readers

/-- **Putting a form together is gathering the contents of its fields.** -/
theorem toFields_ofFields (kind : Kind) (fields : List (String × Field α)) :
    (ofFields kind fields).map (fun form => (form.kind, form.toFields)) =
      (gather kind fields kind.fields).map (Prod.mk kind) := by
  cases kind <;>
    simp only [ofFields, bind, pure, Except.pure, Except.map_bind, Except.bind_map, Kind.fields, gather,
      Kind.default?, FieldSort.default?, Kind.fieldSort?, List.lookup_cons,
      Option.bind_some, String.reduceBEq, BEq.rfl, String.reduceEq, reduceCtorEq, and_true, and_false,
      and_self, ↓reduceIte, readOr_node, readOr_optionalNode, readOr_nodes, readOr_nodesOrNone,
      readOr_holes, readOr_text, readOr_textOr, readOr_flag, readOr_value, readOr_regex] <;>
    rfl

/-! ## What is put together -/

section Gathered

variable {kind : Kind} {fields : List (String × Field α)} {form form' : Form α}

theorem readOr_eq_ok_iff {f : String × FieldSort} {c : Field α} :
    readOr fields f.1 f.2 (kind.default? f.1) = .ok c ↔ kind.content? fields f = some c := by
  rw [readOr, Kind.content?]
  split
  next c' h => rw [h, Except.ok.injEq, Option.some.injEq]
  next h => rw [h]; exact iff_of_false nofun nofun

theorem readOr_eq_error {f : String × FieldSort} (h : kind.content? fields f = none) :
    readOr fields f.1 f.2 (kind.default? f.1) = .error f.1 := by
  rw [Kind.content?] at h
  rw [readOr, h]

theorem gather_eq_ok_iff {fs : List (String × FieldSort)} {cs : List (String × Field α)} :
    gather kind fields fs = .ok cs ↔
      List.Forall₂ (fun f c => c.1 = f.1 ∧ kind.content? fields f = some c.2) fs cs := by
  induction fs generalizing cs with
  | nil => rw [gather, List.forall₂_nil_left_iff, Except.ok.injEq, eq_comm]
  | cons f fs ih =>
    rw [gather, Except.bind_eq_ok_iff, List.forall₂_cons_left_iff]
    constructor
    · rintro ⟨c, hc, hgathered⟩
      obtain ⟨rest, hrest, rfl⟩ := Except.map_eq_ok_iff.mp hgathered
      exact ⟨(f.1, c), rest, ⟨rfl, readOr_eq_ok_iff.mp hc⟩, ih.mp hrest, rfl⟩
    · rintro ⟨⟨name, c⟩, rest, ⟨rfl, hc⟩, hrest, rfl⟩
      exact ⟨c, readOr_eq_ok_iff.mpr hc, Except.map_eq_ok_iff.mpr ⟨rest, ih.mpr hrest, rfl⟩⟩

/-- A form is known by its kind and its fields. -/
theorem eq_of_toFields (hkind : form.kind = form'.kind) (hfields : form.toFields = form'.toFields) :
    form = form' := by
  have h := ofFields_toFields form
  rw [hkind, hfields, ofFields_toFields form'] at h
  exact (Except.ok.inj h).symm

/-- **Which form is put together**: the one of the kind whose fields are the contents. -/
theorem ofFields_eq_ok_iff : ofFields kind fields = .ok form ↔
    form.kind = kind ∧ ∀ f ∈ form.toFields, kind.content? fields (f.1, f.2.sort) = some f.2 := by
  have hgathered : form.kind = kind →
      (gather kind fields kind.fields = .ok form.toFields ↔
        ∀ f ∈ form.toFields, kind.content? fields (f.1, f.2.sort) = some f.2) := by
    rintro rfl
    rw [gather_eq_ok_iff, ← toFields_sorts, List.forall₂_map_left_iff, List.forall₂_same]
    exact forall₂_congr fun _ _ => and_iff_right rfl
  have hmap := toFields_ofFields kind fields
  constructor
  · intro h
    rw [h] at hmap
    obtain ⟨cs, hcs, heq⟩ := Except.map_eq_ok_iff.mp hmap.symm
    obtain ⟨hkind, rfl⟩ := Prod.mk.inj heq
    exact ⟨hkind.symm, (hgathered hkind.symm).mp hcs⟩
  · rintro ⟨hkind, h⟩
    rw [(hgathered hkind).mpr h] at hmap
    obtain ⟨form', hform', heq⟩ := Except.map_eq_ok_iff.mp hmap
    obtain ⟨hkind', hfields⟩ := Prod.mk.inj heq
    rw [hform', eq_of_toFields (hkind'.trans hkind.symm) hfields]

/-- **A form is put together** if all its fields have contents. -/
theorem exists_ofFields (h : ∀ f ∈ kind.fields, (kind.content? fields f).isSome = true) :
    ∃ form, ofFields kind fields = .ok form := by
  obtain ⟨cs, hcs⟩ : ∃ cs, gather kind fields kind.fields = .ok cs := by
    generalize kind.fields = fs at h
    induction fs with
    | nil => exact ⟨[], rfl⟩
    | cons f fs ih =>
      obtain ⟨c, hc⟩ := Option.isSome_iff_exists.mp (h f (.head _))
      obtain ⟨rest, hrest⟩ := ih fun f' hf' => h f' (.tail _ hf')
      refine ⟨(f.1, c) :: rest, ?_⟩
      rw [gather, readOr_eq_ok_iff.mpr hc, hrest]
      rfl
  have hmap := toFields_ofFields kind fields
  rw [hcs] at hmap
  obtain ⟨form, hform, -⟩ := Except.map_eq_ok_iff.mp hmap
  exact ⟨form, hform⟩

/-- **The fields of a form that is put together** are given, or they are defaults. -/
theorem forall_toFields_of_ofFields {P : Field α → Prop} (h : ofFields kind fields = .ok form)
    (hgiven : ∀ f ∈ fields, P f.2) (hdefault : ∀ name d, kind.default? name = some d → P d) :
    ∀ f ∈ form.toFields, P f.2 := by
  intro f hf
  have hcontent := (ofFields_eq_ok_iff.mp h).2 f hf
  rw [Kind.content?] at hcontent
  rcases Option.or_eq_some_iff.mp hcontent with hfilter | ⟨-, hd⟩
  · exact hgiven (f.1, f.2) (Json.mem_of_lookup (Option.filter_eq_some_iff.mp hfilter).1)
  · exact hdefault f.1 f.2 hd

/-- All fields of a form that is put together have contents. -/
theorem isSome_content? (h : ofFields kind fields = .ok form) {f : String × FieldSort}
    (hf : f ∈ kind.fields) : (kind.content? fields f).isSome = true := by
  obtain ⟨rfl, hcontents⟩ := ofFields_eq_ok_iff.mp h
  rw [← toFields_sorts] at hf
  obtain ⟨d, hd, rfl⟩ := List.mem_map.mp hf
  exact Option.isSome_iff_exists.mpr ⟨d.2, hcontents d hd⟩

/-- **A field without a content is reported** if it is the only one. -/
theorem ofFields_eq_error {f : String × FieldSort} (hf : f ∈ kind.fields)
    (hnone : kind.content? fields f = none)
    (hothers : ∀ f' ∈ kind.fields, f' ≠ f → (kind.content? fields f').isSome = true) :
    ofFields kind fields = .error f.1 := by
  have hgather : gather kind fields kind.fields = .error f.1 := by
    generalize kind.fields = fs at hf hothers
    induction fs with
    | nil => cases hf
    | cons f' fs ih =>
      rw [gather]
      by_cases heq : f' = f
      · subst heq
        rw [readOr_eq_error hnone]
        rfl
      · obtain ⟨c, hc⟩ := Option.isSome_iff_exists.mp (hothers f' (.head _) heq)
        have hf' : f ∈ fs := (List.mem_cons.mp hf).resolve_left (Ne.symm heq)
        rw [readOr_eq_ok_iff.mpr hc, ih hf' fun g hg => hothers g (.tail _ hg)]
        rfl
  have hmap := toFields_ofFields kind fields
  rw [hgather] at hmap
  exact Except.map_eq_error_iff.mp hmap

end Gathered

end Form

end RepairCorpus
