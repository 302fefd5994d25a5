import RepairCorpus.Proofs.Syntax.FiniteTrees
import RepairCorpus.Proofs.Syntax.KeyOrder

/-!
# Reading undoes writing

A tree is written as an object with the tags, the kind and a member for each field, save absent parts of
a regular expression.  No two of these members have the same key, so reading finds each where it asks
for it.

* `Field.slot_toJson`: reading a field undoes writing it, if reading its parts does.
* `Node.ofPart_toJson`, `Node.ofJson_toJson`: reading a tree undoes writing it.
* `Node.unrepeated_toJson`: no key is written twice, so the order of the keys does not matter either.
* `Node.reading_undoes_writing`: **trees of finite numbers survive writing and reading**, and so does
  every tree that has been read.
-/

namespace RepairCorpus

open Json (keys)

variable {α : Type}

/-! ## Writing fields -/

theorem Tag.ofJsonWith_name {isVoid : Json → Bool} (t : Tag) :
    Tag.ofJsonWith isVoid (.string t.name) = .ok t := by
  rw [ofJsonWith, ofText, ofName?_name]

theorem readOptionalText_optionalText (s : Option String) :
    readOptionalText (optionalText s) = .ok s := by
  cases s <;> rfl

theorem Regex.ofJson_toJson (r : Regex) : Regex.ofJson r.toJson = .ok r := by
  have hkeys : (keys [("pattern", optionalText r.pattern), ("flags", optionalText r.flags)]).Nodup := by
    show ["pattern", "flags"].Nodup
    decide
  refine (FoundRegex.read_eq_ok_iff hkeys).mpr ⟨some r.pattern, some r.flags, ?_, ?_, rfl⟩
  · exact slot_none_some.mpr ⟨r.pattern, readOptionalText_optionalText r.pattern, rfl⟩
  · exact slot_none_some.mpr ⟨r.flags, readOptionalText_optionalText r.flags, rfl⟩

theorem Regex.unrepeated_toJson (r : Regex) : r.toJson.unrepeated = true := by
  obtain ⟨pattern, flags⟩ := r
  cases pattern <;> cases flags <;> rfl

theorem LiteralValue.unrepeated_toJson (v : LiteralValue) : v.toJson.unrepeated = true := by
  cases v with
  | number x =>
    rw [toJson]
    split <;> rfl
  | regex r => exact r.unrepeated_toJson
  | _ => rfl

theorem LiteralValue.ofJson_toJson {v : LiteralValue} (h : v.isFinite = true) :
    LiteralValue.ofJson v.toJson = .ok v := by
  cases v with
  | number x =>
    have hx : x.isFinite = true := h
    rw [toJson, if_pos hx]
    rfl
  | regex r => exact (ofJson_eq_ok_iff_of_not_isLeaf rfl).mpr ⟨r, r.ofJson_toJson, rfl⟩
  | _ => rfl

namespace Node

theorem isNull_toJson (n : Node) : n.toJson.isNull = false := by
  obtain ⟨own, underlying, form⟩ := n
  rw [toJson_mk]
  rfl

theorem ofOptionalPart_toJson {o : Option Node} (h : ∀ c ∈ o.toList, ofPart c.toJson = .ok c) :
    ofOptionalPart ((o.map toJson).getD .null) = .ok o := by
  cases o with
  | none => rfl
  | some n =>
    rw [Option.map_some, Option.getD_some, ofOptionalPart_eq_map n.isNull_toJson,
      h n (List.mem_singleton_self n)]
    rfl

end Node

/-- **Reading a field undoes writing it.** -/
theorem Field.slot_toJson {f : Field Node} (hfinite : f.isFinite = true)
    (hparts : ∀ c ∈ f.parts, Node.ofPart c.toJson = .ok c) :
    Slot (Field.ofJson f.sort) none (f.map Node.toJson).toJson? f.written? := by
  cases f with
  | node x =>
    refine slot_none_some.mpr ⟨.node x, ?_, rfl⟩
    exact Except.map_eq_ok_iff.mpr ⟨x, hparts x (List.mem_singleton_self x), rfl⟩
  | optionalNode x =>
    refine slot_none_some.mpr ⟨.optionalNode x, ?_, rfl⟩
    exact Except.map_eq_ok_iff.mpr ⟨x, Node.ofOptionalPart_toJson hparts, rfl⟩
  | nodes xs =>
    refine slot_none_some.mpr ⟨.nodes xs, Except.map_eq_ok_iff.mpr ⟨xs, ?_, rfl⟩, rfl⟩
    rw [Node.readList_eq_ok_iff, List.forall₂_map_left_iff, List.forall₂_same]
    exact hparts
  | holes xs =>
    refine slot_none_some.mpr ⟨.holes xs, Except.map_eq_ok_iff.mpr ⟨xs, ?_, rfl⟩, rfl⟩
    rw [Node.readHoles_eq_ok_iff, List.forall₂_map_left_iff, List.forall₂_map_left_iff,
      List.forall₂_same]
    intro o ho
    exact Node.ofOptionalPart_toJson fun c hc =>
      hparts c (Form.mem_present.mpr (Option.mem_toList.mp hc ▸ ho))
  | text s => exact slot_none_some.mpr ⟨.text s, rfl, rfl⟩
  | flag b => exact slot_none_some.mpr ⟨.flag b, rfl, rfl⟩
  | value v =>
    refine slot_none_some.mpr ⟨.value v, ?_, rfl⟩
    exact Except.map_eq_ok_iff.mpr ⟨v, LiteralValue.ofJson_toJson hfinite, rfl⟩
  | regex r =>
    cases r with
    | none => exact slot_none.mpr rfl
    | some r =>
      refine slot_none_some.mpr ⟨.regex (some r), ?_, rfl⟩
      exact Except.map_eq_ok_iff.mpr
        ⟨some r, Except.map_eq_ok_iff.mpr ⟨r, r.ofJson_toJson, rfl⟩, rfl⟩

/-! ## Writing trees -/

namespace Form

/-- The members for the tags and the kind of a node. -/
def header (own underlying : Tag) (form : Form α) : List (String × Json) :=
  [(kindField, .string form.kind.name), (ownTagField, .string own.name),
    (underlyingTagField, .string underlying.name)]

/-- The members for the fields of a construct. -/
def fieldMembers (form : Form Json) : List (String × Json) :=
  form.toFields.filterMap fun f => f.2.toJson?.map fun v => (f.1, v)

end Form

namespace Node

theorem toJson_eq (own underlying : Tag) (form : Form Node) :
    toJson ⟨own, underlying, form⟩ =
      .object (form.header own underlying ++ (form.map toJson).fieldMembers) :=
  toJson_mk own underlying form

variable {own underlying : Tag} {form : Form Node}

theorem lookup_fieldMembers (key : String) :
    (form.map toJson).fieldMembers.lookup key =
      (form.toFields.lookup key).bind fun f => (f.map toJson).toJson? := by
  rw [Form.fieldMembers, Json.lookup_filterMap _ (form.map toJson).nodup_toFields, Form.toFields_map,
    Json.lookup_map_values, Option.bind_map]
  rfl

theorem keys_fieldMembers_sublist :
    (keys (form.map toJson).fieldMembers).Sublist (keys form.kind.fields) := by
  have h := Json.keys_filterMap_sublist Field.toJson? (form.map toJson).toFields
  rw [Form.keys_toFields, Form.kind_map] at h
  exact h

theorem nodup_keys_toJson :
    (keys (form.header own underlying ++ (form.map toJson).fieldMembers)).Nodup := by
  rw [keys, List.map_append, List.nodup_append]
  have hheader : ((form.header own underlying).map Prod.fst).Nodup := by
    show [kindField, ownTagField, underlyingTagField].Nodup
    decide
  refine ⟨hheader, form.kind.nodup_fields.sublist keys_fieldMembers_sublist, ?_⟩
  rintro key hreserved _ hfield rfl
  have hmem : key ∈ keys form.kind.fields := keys_fieldMembers_sublist.subset hfield
  have hsome := Json.isSome_lookup_iff_keys.mpr hmem
  rw [← Kind.fieldSort?, fieldSort?_of_reserved hreserved] at hsome
  cases hsome

theorem lookup_header_append {key : String} (h : key ∉ [kindField, ownTagField, underlyingTagField])
    (ms : List (String × Json)) :
    (form.header own underlying ++ ms).lookup key = ms.lookup key := by
  have hne {k : String} (hk : k ∈ [kindField, ownTagField, underlyingTagField]) : key ≠ k := by
    rintro rfl
    exact h hk
  show ((kindField, _) :: (ownTagField, _) :: (underlyingTagField, _) :: ms).lookup key = ms.lookup key
  rw [Json.lookup_cons_of_ne (hne (by decide)), Json.lookup_cons_of_ne (hne (by decide)),
    Json.lookup_cons_of_ne (hne (by decide))]

/-- What is written for a construct's fields is found again. -/
theorem foundField_toJson (hfinite : form.isFinite = true)
    (hparts : ∀ c ∈ form.children, ofPart c.toJson = .ok c) (key : String) :
    FoundField form.kind key
      ((form.header own underlying ++ (form.map toJson).fieldMembers).lookup key)
      (form.writtenFields.lookup key) := by
  have hsort := form.fieldSort?_kind key
  rw [Form.writtenFields, Json.lookup_filterMap _ form.nodup_toFields, FoundField]
  cases hf : form.toFields.lookup key with
  | none =>
    rw [hf, Option.map_none] at hsort
    rw [hsort]
    rfl
  | some f =>
    rw [hf, Option.map_some] at hsort
    have hfree : key ∉ [kindField, ownTagField, underlyingTagField] := by
      intro hreserved
      rw [fieldSort?_of_reserved hreserved] at hsort
      cases hsort
    rw [hsort, lookup_header_append hfree, lookup_fieldMembers, hf, Option.bind_some, Option.bind_some]
    have hmem : (key, f) ∈ form.toFields := Json.mem_of_lookup hf
    refine Field.slot_toJson ((Form.isFinite_iff form).mp hfinite _ hmem) fun c hc => hparts c ?_
    rw [Form.children_eq_parts]
    exact List.mem_flatMap.mpr ⟨(key, f), hmem, hc⟩

/-- **Reading a tree as a part of another undoes writing it.** -/
theorem ofPart_toJson {n : Node} (h : n.Finite) : ofPart n.toJson = .ok n := by
  induction n using Node.induction with
  | step own underlying form ih =>
    obtain ⟨hform, hchildren⟩ := (finite_mk own underlying form).mp h
    have hparts : ∀ c ∈ form.children, ofPart c.toJson = .ok c := fun c hc => ih c hc (hchildren c hc)
    rw [toJson_eq]
    refine (ofPart_eq_ok_iff nodup_keys_toJson).mpr
      ⟨⟨some own, some underlying⟩, form.kind, form.writtenFields, ?_, ?_, ?_,
        foundField_toJson hform hparts, ?_⟩
    · exact slot_none_some.mpr ⟨own, Tag.ofJsonWith_name own, rfl⟩
    · exact slot_none_some.mpr ⟨underlying, Tag.ofJsonWith_name underlying, rfl⟩
    · exact slot_none_some.mpr ⟨form.kind, by rw [Kind.ofJson, Kind.ofName_name], rfl⟩
    · rw [assemble, Form.ofFields_writtenFields]
      rfl

/-- **Reading a tree undoes writing it.** -/
theorem ofJson_toJson {n : Node} (h : n.Finite) : ofJson n.toJson = .ok n := by
  have hpart := ofPart_toJson h
  obtain ⟨own, underlying, form⟩ := n
  rw [toJson_eq] at hpart ⊢
  refine (ofJson_eq_ok_iff nodup_keys_toJson).mpr ⟨⟨some own, some underlying, ?_, ?_⟩, hpart⟩
  · exact slot_none_some.mpr ⟨own, Tag.ofJsonWith_name own, rfl⟩
  · exact slot_none_some.mpr ⟨underlying, Tag.ofJsonWith_name underlying, rfl⟩

theorem unrepeated_toJson? {f : Field Node} (h : ∀ c ∈ f.parts, c.toJson.unrepeated = true) {v : Json}
    (hv : (f.map toJson).toJson? = some v) : v.unrepeated = true := by
  have hoption {o : Option Node} (h : ∀ c ∈ o.toList, c.toJson.unrepeated = true) :
      ((o.map toJson).getD .null).unrepeated = true := by
    cases o with
    | none => rfl
    | some c => exact h c (List.mem_singleton_self c)
  cases f with
  | node x =>
    cases hv
    exact h x (List.mem_singleton_self x)
  | optionalNode x =>
    cases hv
    exact hoption h
  | nodes xs =>
    cases hv
    refine Json.unrepeated_array.mpr fun v hv => ?_
    obtain ⟨c, hc, rfl⟩ := List.mem_map.mp hv
    exact h c hc
  | holes xs =>
    cases hv
    refine Json.unrepeated_array.mpr fun v hv => ?_
    obtain ⟨_, hw, rfl⟩ := List.mem_map.mp hv
    obtain ⟨o, ho, rfl⟩ := List.mem_map.mp hw
    exact hoption fun c hc => h c (Form.mem_present.mpr (Option.mem_toList.mp hc ▸ ho))
  | text s =>
    cases hv
    rfl
  | flag b =>
    cases hv
    rfl
  | value x =>
    cases hv
    exact x.unrepeated_toJson
  | regex r =>
    obtain ⟨r, -, rfl⟩ := Option.map_eq_some_iff.mp hv
    exact r.unrepeated_toJson

/-- No key is written twice. -/
theorem unrepeated_toJson (n : Node) : n.toJson.unrepeated = true := by
  induction n using Node.induction with
  | step own underlying form ih =>
    rw [toJson_eq, Json.unrepeated_object]
    refine ⟨nodup_keys_toJson, fun m hm => ?_⟩
    rcases List.mem_append.mp hm with hm | hm
    · have hheader : ∀ m ∈ form.header own underlying, m.2.unrepeated = true :=
        List.forall_mem_cons.mpr ⟨rfl, List.forall_mem_cons.mpr ⟨rfl, List.forall_mem_singleton.mpr rfl⟩⟩
      exact hheader m hm
    · have hkeys := form.kind.nodup_fields.sublist (@keys_fieldMembers_sublist form)
      have hlookup := Json.lookup_of_mem hkeys (show (m.1, m.2) ∈ _ from hm)
      rw [lookup_fieldMembers] at hlookup
      obtain ⟨f, hf, hv⟩ := Option.bind_eq_some_iff.mp hlookup
      refine unrepeated_toJson? (fun c hc => ih c ?_) hv
      rw [Form.children_eq_parts]
      exact List.mem_flatMap.mpr ⟨(m.1, f), Json.mem_of_lookup hf, hc⟩

end Node

/-! ## Main result -/

/-- **Reading undoes writing**, in whatever order the keys come; so whatever has been read is read again
when it has been written. -/
theorem Node.reading_undoes_writing :
    (∀ n : Node, n.Finite → ofJson n.toJson = .ok n ∧ ofJson n.toJson.sorted = .ok n) ∧
      ∀ (v : Json) (n : Node), v.finite = true → ofJson v = .ok n →
        ofJson n.toJson = .ok n ∧ ofJson n.toJson.sorted = .ok n := by
  have hwritten : ∀ n : Node, n.Finite → ofJson n.toJson = .ok n ∧ ofJson n.toJson.sorted = .ok n := by
    intro n hn
    have hread := ofJson_toJson hn
    exact ⟨hread, (ofJson_sorted n.unrepeated_toJson n).mpr hread⟩
  exact ⟨hwritten, fun v n hv hread => hwritten n (finite_of_ofJson hv hread)⟩

/-- An array literal with a hole, a regular expression without a pattern, a number and a construct without
tokens. -/
def holedArray : Node :=
  ⟨.inserted, .unknown, .arrayExpression
    [none, some ⟨.unknown, .removed, .literal (.regex ⟨none, some "g"⟩) "/x/g" none⟩,
      some ⟨.moved, .updated, .literal (.number (.ofInt 3)) "3" (some ⟨some "x", none⟩)⟩,
      some ⟨.unknown, .unknown, .other⟩]⟩

/-- A number whose kind comes last, with a key that no reader asks for. -/
def lateKind : Json :=
  .object [("raw", .string "3"), ("note", .null), ("value", .number (.integer 3)),
    ("type", .string "Literal")]

theorem Node.reading_undoes_writing_holedArray :
    (holedArray.Finite ∧ ofJson holedArray.toJson = .ok holedArray) ∧
      lateKind.finite = true ∧
        ofJson lateKind = .ok (untagged (.literal (.number (.ofInt 3)) "3" none)) ∧
        ofJson (untagged (.literal (.number (.ofInt 3)) "3" none)).toJson.sorted =
          .ok (untagged (.literal (.number (.ofInt 3)) "3" none)) := by
  have hleaf {own underlying : Tag} {form : Form Node} (hform : form.isFinite = true)
      (hchildren : form.children = []) : Finite ⟨own, underlying, form⟩ := by
    refine (finite_mk own underlying form).mpr ⟨hform, fun c hc => ?_⟩
    rw [hchildren] at hc
    cases hc
  have hfinite : holedArray.Finite := by
    have hthree : (Binary64.ofInt 3).isFinite = true := Binary64.isFinite_ofInt 3
    refine (finite_mk _ _ _).mpr ⟨rfl, List.forall_mem_cons.mpr ⟨hleaf rfl rfl, ?_⟩⟩
    exact List.forall_mem_cons.mpr ⟨hleaf hthree rfl, List.forall_mem_singleton.mpr (hleaf rfl rfl)⟩
  have hread : ofJson lateKind = .ok (untagged (.literal (.number (.ofInt 3)) "3" none)) := by rfl
  exact ⟨⟨hfinite, (reading_undoes_writing.1 _ hfinite).1⟩, rfl, hread,
    (reading_undoes_writing.2 lateKind _ rfl hread).2⟩

end RepairCorpus
