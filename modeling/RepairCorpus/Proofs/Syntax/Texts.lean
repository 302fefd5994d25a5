import RepairCorpus.Proofs.Json.Excerpts
import RepairCorpus.Proofs.Syntax.KeyOrder

/-!
# Reading trees from texts

A tree may be read straight from a text, with the keys in the order of the text and the tags judged
before the text has been seen to its end, or from the value of the text, with the keys sorted.  The two
ways differ only in the error they report.

* `Tag.ofUnfinished_eq_ok_iff`: a tag that is judged early is judged alike.
* `Node.ofText_eq_ok_iff`: a tree is read from a text if and only if it is read from its value.
* `Node.reading_ignores_order`: **neither the order of keys nor keys that are ignored change what is
  read**, from values or from texts.
-/

namespace RepairCorpus

open Json (keys)

/-- Judging a tag before the end of the text has been seen only changes the error. -/
theorem Tag.ofUnfinished_eq_ok_iff {v : Json} {t : Tag} :
    Tag.ofUnfinished v = .ok t ↔ Tag.ofJson v = .ok t := by
  unfold Tag.ofUnfinished
  split
  next rest =>
    rw [Tag.ofJson, Tag.ofJsonWith_object_eq_ok_iff]
    refine iff_of_false nofun ?_
    rintro ⟨key, v, heq, ht, -⟩
    cases heq
    cases ht
  next key v rest _ =>
    rw [Tag.ofJson, Tag.ofJsonWith_object_eq_ok_iff]
    refine Except.bind_eq_ok_iff.trans ?_
    constructor
    · rintro ⟨t', ht, hvoid⟩
      split at hvoid
      next h =>
        cases hvoid
        obtain ⟨hnull, hrest⟩ := (Bool.and_eq_true _ _).mp h
        cases List.isEmpty_iff.mp hrest
        exact ⟨key, v, rfl, ht, hnull⟩
      next => cases hvoid
    · rintro ⟨key', v', heq, ht, hnull⟩
      cases heq
      refine ⟨t, ht, if_pos ?_⟩
      rw [hnull, List.isEmpty_nil, Bool.and_self]
  next => exact Iff.rfl

namespace Node

/-- **A tree is read from a text if and only if it is read from the text's value.** -/
theorem ofText_eq_ok_iff {text : String} (hclosed : (Json.read none text).closed = true)
    (hunrepeated : (Json.read none text).value.unrepeated = true)
    (hdepth : (Json.read none text).value.depth ≤ Json.nestingLimit) (n : Node) :
    ofText text = .ok n ↔ ofJson (Json.read none text).value = .ok n := by
  have hwhole := Json.whole_of_closed hclosed
  rw [ofText, Json.read_some_eq hdepth]
  generalize Json.read none text = d at hclosed hunrepeated hwhole ⊢
  obtain ⟨value, closed⟩ := d
  cases value with
  | object ms =>
    dsimp only at hclosed hwhole hunrepeated ⊢
    have hkeys := (Json.unrepeated_object.mp hunrepeated).1
    subst hclosed
    rw [if_pos hwhole]
    refine Except.bind_eq_ok_iff.trans ?_
    constructor
    · rintro ⟨tags, -, h⟩
      obtain ⟨m, hm, heq⟩ := Except.bind_eq_ok_iff.mp h
      cases heq
      exact hm
    · intro h
      obtain ⟨⟨own, underlying, hown, hunderlying⟩, -⟩ := (ofJson_eq_ok_iff hkeys).mp h
      have hslot (key : String) (after : Option Tag) :
          Slot Tag.ofUnfinished none (ms.lookup key) after ↔
            Slot Tag.ofJson none (ms.lookup key) after := by
        refine slot_congr rfl fun v w hv hw t => ?_
        rw [hv] at hw
        cases hw
        exact Tag.ofUnfinished_eq_ok_iff
      refine ⟨⟨own, underlying⟩, ?_, Except.bind_eq_ok_iff.mpr ⟨n, h, rfl⟩⟩
      exact (FoundTags.readWith_eq_ok_iff hkeys).mpr
        ⟨(hslot ownTagField own).mpr hown, (hslot underlyingTagField underlying).mpr hunderlying⟩
  | _ => exact iff_of_false nofun nofun

/-- **Neither the order of keys nor keys that are ignored change what is read.**  A tree is read from two
values that are alike, or from neither; and it is read from a text, with the keys in the order they have
there, if and only if it is read from the text's value with the keys sorted. -/
theorem reading_ignores_order :
    (∀ v w : Json, v.unrepeated = true → w.unrepeated = true → Alike .tree v w → ∀ n : Node,
      (ofJson v = .ok n ↔ ofJson w = .ok n) ∧
        (ofJson v.sorted = .ok n ↔ ofJson w.sorted = .ok n)) ∧
      ∀ text : String, (Json.read none text).closed = true →
        (Json.read none text).value.unrepeated = true →
        (Json.read none text).value.depth ≤ Json.nestingLimit → ∀ n : Node,
          ofText text = .ok n ↔ ofJson (Json.read none text).value.sorted = .ok n := by
  constructor
  · intro v w hv hw halike n
    have hvw := ofJson_congr halike hv hw n
    rw [ofJson_sorted hv, ofJson_sorted hw]
    exact ⟨hvw, hvw⟩
  · intro text hclosed hunrepeated hdepth n
    rw [ofText_eq_ok_iff hclosed hunrepeated hdepth, ofJson_sorted hunrepeated]

/-- A return statement with its kind first. -/
def kindFirst : Json :=
  .object [("type", .string "ReturnStatement"),
    ("argument", .object [("type", .string "Identifier"), ("name", .string "x")])]

/-- The same with its kind last, inside and outside, and with keys that are ignored. -/
def kindLast : Json :=
  .object [("loc", .number (.integer 7)),
    ("argument", .object [("name", .string "x"), ("note", .null), ("type", .string "Identifier")]),
    ("type", .string "ReturnStatement")]

/-- The text of a return statement with its kind last. -/
def kindLastText : String :=
  "\x7b\"argument\":\x7b\"name\":\"x\",\"type\":\"Identifier\"\x7d,\"type\":\"ReturnStatement\"\x7d"

theorem alike_kindFirst_kindLast : Alike .tree kindFirst kindLast := by
  have hargument : Alike .tree (.object [("type", .string "Identifier"), ("name", .string "x")])
      (.object [("name", .string "x"), ("note", .null), ("type", .string "Identifier")]) := by
    refine .of_fields rfl ?_ ?_
    · refine List.forall_mem_cons.mpr ⟨.some (.refl _ _), List.forall_mem_cons.mpr ⟨.none, ?_⟩⟩
      exact List.forall_mem_singleton.mpr .none
    · exact List.forall_mem_singleton.mpr (.some (.refl _ _))
  refine .of_fields rfl ?_ ?_
  · refine List.forall_mem_cons.mpr ⟨.some (.refl _ _), List.forall_mem_cons.mpr ⟨.none, ?_⟩⟩
    exact List.forall_mem_singleton.mpr .none
  · exact List.forall_mem_singleton.mpr (.some hargument)

theorem reading_ignores_order_kindLast :
    ofJson kindLast = .ok (untagged (.returnStatement (some (untagged (.identifier "x"))))) ∧
      ofText kindLastText =
        .ok (untagged (.returnStatement (some (untagged (.identifier "x"))))) := by
  have hfirst : ofJson kindFirst =
      .ok (untagged (.returnStatement (some (untagged (.identifier "x"))))) := by rfl
  have hvalue : Json.read none kindLastText = ⟨.object
      [("argument", .object [("name", .string "x"), ("type", .string "Identifier")]),
        ("type", .string "ReturnStatement")], true⟩ := by rfl
  constructor
  · exact ((reading_ignores_order.1 kindFirst kindLast rfl rfl alike_kindFirst_kindLast _).1).mp hfirst
  · refine (reading_ignores_order.2 kindLastText ?_ ?_ ?_ _).mpr ?_
    · rw [hvalue]
    · rw [hvalue]
      rfl
    · rw [hvalue]
      decide
    · rw [hvalue]
      rfl

end Node

end RepairCorpus
