import RepairCorpus.Proofs.Syntax.ReadPlaces

/-!
# What cannot be left out

A document is read as a tree, and then something is left out of one of the objects that were read as its
nodes, however deep it stands.  If it is the kind or a field without a default, the whole document is
rejected, and the message names what is missing.  If it is anything else, the document is read as the same
tree, but for that field of that node.

* `FieldSort.isNullable`: the fields that can be set to null.
* `Node.Omissions`: what comes of leaving out each thing that a node is made of.
* `Node.omissions_ofPart`: for the object of the node alone.
* `Node.leaving_out_is_local`: **for the document that the object stands in.**
-/

namespace RepairCorpus

open Json (keys putMember Puts rewriteMember Pointer)

/-! ## Null -/

/-- Whether null can stand for the content of a field. -/
def FieldSort.isNullable : FieldSort → Bool
  | .optionalNode | .value | .regex => true
  | .node | .nodes | .holes | .text | .flag => false

/-- **Null is read as the default.** -/
theorem Field.ofJson_null {kind : Kind} {name : String} {sort : FieldSort} {d : Field Node}
    (hsort : kind.fieldSort? name = some sort) (hnullable : sort.isNullable = true)
    (hd : kind.default? name = some d) : Field.ofJson sort .null = .ok d := by
  obtain ⟨⟨rfl, rfl⟩, rfl⟩ | ⟨⟨rfl, rfl⟩, rfl⟩ | ⟨⟨rfl, rfl⟩, rfl⟩ | ⟨sort', hsort', hd⟩ :=
    Kind.default?_cases hd
  · cases hsort
    cases hnullable
  · cases hsort
    cases hnullable
  · cases hsort
    cases hnullable
  · cases hsort.symm.trans hsort'
    cases sort <;> cases hnullable <;> cases hd <;> rfl

/-! ## Omissions -/

namespace Node

/-- A field is missing: the input is malformed, and the text of the error names the field. -/
def ReportsMissing (name : String) (r : Except Error Node) : Prop :=
  ∃ e, r = .error e ∧ e = .malformed (.missingField name) ∧
    e.message = "malformed input: missing field `" ++ name ++ "`"

theorem reportsMissing_of_eq {name : String} {r : Except Error Node}
    (h : r = .error (.malformed (.missingField name))) : ReportsMissing name r :=
  ⟨_, h, rfl, rfl⟩

/-- What comes of changing the members `ms` that were read as the node `m`, where `read` reads them in
their new form and `put` makes a tree of a node in the place of `m`. -/
structure Omissions (ms : List (String × Json)) (m : Node) (put : Node → Node)
    (read : List (String × Json) → Except Error Node) : Prop where
  /-- The kind cannot be left out. -/
  kind : ∀ ms', Puts kindField none ms ms' → ReportsMissing kindField (read ms')
  /-- A field without a default cannot be left out. -/
  required : ∀ name sort ms', m.kind.fieldSort? name = some sort →
    m.kind.default? name = (none : Option (Field Node)) → Puts name none ms ms' →
    ReportsMissing name (read ms')
  /-- A field that is left out, or set to null where it can be, has its default, and nothing else changes. -/
  defaulted : ∀ name sort d v? ms', m.kind.fieldSort? name = some sort → m.kind.default? name = some d →
    v? = none ∨ sort.isNullable = true ∧ v? = some .null → Puts name v? ms ms' →
    ∃ form : Form Node, form.kind = m.kind ∧ form.toFields = putMember name d m.form.toFields ∧
      read ms' = .ok (put (m.withForm form))
  /-- A tag that is left out is unknown. -/
  own : ∀ ms', Puts ownTagField none ms ms' → read ms' = .ok (put { m with own := .unknown })
  underlying : ∀ ms', Puts underlyingTagField none ms ms' →
    read ms' = .ok (put { m with underlying := .unknown })

variable {ms : List (String × Json)} {n m : Node} {v : Json} {ptr : Pointer}

/-- **An object that is read as a node**, with nothing around it. -/
theorem omissions_ofPart (hkeys : (keys ms).Nodup) (hm : ofPart (.object ms) = .ok m) :
    Omissions ms m id fun ms' => ofPart (.object ms') where
  kind ms' hputs := reportsMissing_of_eq (ofPart_of_puts_kind hkeys hm hputs)
  required name sort ms' hsort hdefault hputs :=
    reportsMissing_of_eq (ofPart_of_puts_missing hkeys hm hsort hdefault hputs)
  defaulted name sort d v? ms' hsort hdefault hv? hputs := by
    have hds : d.sort = sort := Kind.sort_of_default? hsort hdefault
    have hsortd : m.form.kind.fieldSort? name = some d.sort := hsort.trans (congrArg some hds.symm)
    obtain ⟨form, hkind, hfields⟩ := Form.exists_putMember hsortd
    refine ⟨form, hkind, hfields, ?_⟩
    rcases hv? with rfl | ⟨hnullable, rfl⟩
    · exact ofPart_of_puts hkeys hm hsort hputs (slot_none.mpr rfl) hdefault hkind hfields
    · have hread : Field.ofJson sort .null = .ok d := Field.ofJson_null hsort hnullable hdefault
      exact ofPart_of_puts hkeys hm hsort hputs (slot_none_some.mpr ⟨d, hread, rfl⟩) rfl hkind hfields
  own ms' hputs := ofPart_of_puts_own hkeys hm hputs
  underlying ms' hputs := ofPart_of_puts_underlying hkeys hm hputs

/-- What comes of the changes of an object comes of them wherever the object stands. -/
theorem Omissions.lift {put : Node → Node} {read read' : List (String × Json) → Except Error Node}
    (h : Omissions ms m id read)
    (hread : ∀ key v? ms', Puts key v? ms ms' → (key ∈ [ownTagField, underlyingTagField] → v? = none) →
      read' ms' = (read ms').map put) : Omissions ms m put read' where
  kind ms' hputs := by
    obtain ⟨e, he, hcause, htext⟩ := h.kind ms' hputs
    refine ⟨e, ?_, hcause, htext⟩
    rw [hread kindField none ms' hputs fun _ => rfl, he]
    rfl
  required name sort ms' hsort hdefault hputs := by
    obtain ⟨e, he, hcause, htext⟩ := h.required name sort ms' hsort hdefault hputs
    refine ⟨e, ?_, hcause, htext⟩
    rw [hread name none ms' hputs fun _ => rfl, he]
    rfl
  defaulted name sort d v? ms' hsort hdefault hv? hputs := by
    obtain ⟨form, hkind, hfields, hok⟩ := h.defaulted name sort d v? ms' hsort hdefault hv? hputs
    refine ⟨form, hkind, hfields, ?_⟩
    have htag : name ∈ [ownTagField, underlyingTagField] → v? = none := by
      intro hname
      rw [fieldSort?_of_reserved (List.mem_cons_of_mem _ hname)] at hsort
      cases hsort
    rw [hread name v? ms' hputs htag, hok]
    rfl
  own ms' hputs := by
    rw [hread ownTagField none ms' hputs fun _ => rfl, h.own ms' hputs]
    rfl
  underlying ms' hputs := by
    rw [hread underlyingTagField none ms' hputs fun _ => rfl, h.underlying ms' hputs]
    rfl

theorem ofPart_of_ofJson (hv : v.unrepeated = true) (hn : ofJson v = .ok n) : ofPart v = .ok n := by
  cases v with
  | object ns => exact ((ofJson_eq_ok_iff (Json.unrepeated_object.mp hv).1).mp hn).2
  | _ => cases hn

/-- Changes below the outermost node leave its tags alone, so that they are read strictly once more. -/
theorem ofJson_putAt (hv : v.unrepeated = true) (hn : ofJson v = .ok n)
    (hat : Place.tree.at? v ptr = some (.tree, .object ms)) {key : String} {v? : Option Json}
    {ms' : List (String × Json)} (hputs : Puts key v? ms ms')
    (htag : key ∈ [ownTagField, underlyingTagField] → v? = none) :
    ofJson (v.putAt ptr (.object ms')) = ofPart (v.putAt ptr (.object ms')) := by
  cases v with
  | object ns =>
    have hkeys := (Json.unrepeated_object.mp hv).1
    cases ptr with
    | nil =>
      cases hat
      rw [Json.putAt_nil]
      exact ofJson_of_puts hkeys hn hputs htag
    | cons step rest =>
      obtain ⟨name, kind, sort, w, rfl, -, hsort, hw, -⟩ := Place.exists_key_of_at? hat
      rw [Json.putAt_key hw]
      refine ofJson_of_puts hkeys hn (Json.puts_putMember hkeys hw) fun hname => ?_
      rw [fieldSort?_of_reserved (List.mem_cons_of_mem _ hname)] at hsort
      cases hsort
  | _ => cases hn

/-! ## Main result -/

/-- **What is left out of an object that is read as a node**, anywhere in a document that gives no key twice, is
reported if it is the kind or a required field, and otherwise the tree is the same but for that field of that
node.  The nodes of the tree are all read from such objects. -/
theorem leaving_out_is_local (hv : v.unrepeated = true) (hn : ofJson v = .ok n) :
    (∀ ptr ms, Place.tree.at? v ptr = some (.tree, .object ms) →
      ∃ p m, n.at? p = some m ∧ ofPart (.object ms) = .ok m ∧
        Omissions ms m (n.setAt p) fun ms' => ofJson (v.putAt ptr (.object ms'))) ∧
      ∀ p m, n.at? p = some m →
        ∃ ptr ms, Place.tree.at? v ptr = some (.tree, .object ms) ∧ ofPart (.object ms) = .ok m := by
  have hpart : ofPart v = .ok n := ofPart_of_ofJson hv hn
  constructor
  · intro ptr ms hat
    obtain ⟨p, m, hm, hread, hunrepeated, hexchange⟩ := exists_path ptr hv hpart hat
    refine ⟨p, m, hm, hread, ?_⟩
    refine (omissions_ofPart (Json.unrepeated_object.mp hunrepeated).1 hread).lift ?_
    intro key v? ms' hputs htag
    rw [ofJson_putAt hv hn hat hputs htag, hexchange]
  · intro p m hm
    exact exists_pointer hv hpart hm

end Node

/-- The members of `x -`, a unary expression behind its argument. -/
def trailingMinus : List (String × Json) :=
  [("type", .string "UnaryExpression"), ("operator", .string "-"), ("prefix", .bool false),
    ("argument", .object [("type", .string "Identifier"), ("name", .string "x")])]

/-- An array literal with a hole in front of it. -/
def holedDocument : Json :=
  .object [("elements", .array [.null, .object trailingMinus]), ("change", .string "UPDATED"),
    ("type", .string "ArrayExpression")]

namespace Node

/-- The expression alone. -/
def minus (isPrefix : Bool) : Node :=
  untagged (.unaryExpression "-" (untagged (.identifier "x")) isPrefix)

/-- The whole literal. -/
def holedLiteral : Node := ⟨.unknown, .updated, .arrayExpression [none, some (minus false)]⟩

/-- The literal with a member taken away from the expression. -/
def holedDocumentWithout (name : String) : Json :=
  holedDocument.putAt [.key "elements", .index 1] (.object (rewriteMember name none trailingMinus))

/-- Without its operator the literal is rejected; without its `prefix` the expression is one in front of its
argument. -/
theorem leaving_out_is_local_minus :
    (holedDocument.unrepeated = true ∧ ofJson holedDocument = .ok holedLiteral) ∧
      ReportsMissing "operator" (ofJson (holedDocumentWithout "operator")) ∧
      ∃ p, holedLiteral.at? p = some (minus false) ∧
        ofJson (holedDocumentWithout "prefix") = .ok (holedLiteral.setAt p (minus true)) := by
  have hv : holedDocument.unrepeated = true := rfl
  have hn : ofJson holedDocument = .ok holedLiteral := by rfl
  have hat : Place.tree.at? holedDocument [.key "elements", .index 1] =
      some (.tree, .object trailingMinus) := by rfl
  have hpart : ofPart (.object trailingMinus) = .ok (minus false) := by rfl
  have hputs (name : String) : Puts name none trailingMinus (rewriteMember name none trailingMinus) :=
    Json.puts_rewriteMember (by decide) name none
  obtain ⟨p, m, hp, hm, homissions⟩ := (leaving_out_is_local hv hn).1 _ _ hat
  cases hpart.symm.trans hm
  refine ⟨⟨hv, hn⟩, homissions.required "operator" .text _ rfl rfl (hputs "operator"), p, hp, ?_⟩
  obtain ⟨form, hkind, hfields, hread⟩ :=
    homissions.defaulted "prefix" .flag (.flag true) none _ rfl rfl (.inl rfl) (hputs "prefix")
  obtain rfl : form = (minus true).form := Form.eq_of_toFields hkind hfields
  exact hread

end Node

end RepairCorpus
