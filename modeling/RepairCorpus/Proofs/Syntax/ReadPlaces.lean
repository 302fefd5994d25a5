import Mathlib.Data.List.Pairwise
import RepairCorpus.Proofs.Syntax.ChangedMembers
import RepairCorpus.Proofs.Syntax.Places

/-!
# Nodes inside a document

Some of the objects in a document are read as nodes: the document itself, and what stands in the fields of
such an object that have parts.  Where one of them stands in the document and where its node is in the tree
are told by a pointer and by a path, and one follows the other: what the object is exchanged for is read as
what comes in the place of the node, and nothing else is read otherwise.

* `Place.at?`: what stands at the end of a pointer, and what it is read as.
* `Form.toFields_setChild`: a form with one part exchanged is a form with one field changed.
* `Node.exists_path`: **an object that is read as a node is a node of the tree, and exchanging one exchanges
  the other**, with whatever is wrong with the new one as the error.
* `Node.exists_pointer`: every node of the tree is such an object.
-/

namespace RepairCorpus

open Json (keys putMember Pointer Step)

/-! ## Places along a pointer -/

namespace Place

/-- What stands at the end of a pointer and what it is read as, unless it is ignored. -/
def at? : Place → Json → Pointer → Option (Place × Json)
  | p, v, [] => some (p, v)
  | p, .object ms, .key name :: rest =>
    (p.member? ms name).bind fun q => (ms.lookup name).bind fun w => q.at? w rest
  | p, .array items, .index i :: rest => items[i]?.bind fun u => p.item.at? u rest
  | _, _, _ :: _ => none

/-- Below a plain place there are plain places only. -/
theorem eq_plain_of_at? {v w : Json} {ptr : Pointer} {q : Place} (h : plain.at? v ptr = some (q, w)) :
    q = .plain := by
  induction ptr generalizing v with
  | nil =>
    cases v <;> cases h <;> rfl
  | cons step rest ih =>
    cases v with
    | object ms =>
      cases step with
      | key name =>
        rw [at?, member?, Option.bind_some] at h
        obtain ⟨u, -, hu⟩ := Option.bind_eq_some_iff.mp h
        exact ih hu
      | index i => cases h
    | array items =>
      cases step with
      | key name => cases h
      | index i =>
        rw [at?] at h
        obtain ⟨u, -, hu⟩ := Option.bind_eq_some_iff.mp h
        exact ih hu
    | _ => cases step <;> cases h

/-- A value with an object at the end of a pointer is not null. -/
theorem isNull_of_at? {p q : Place} {v : Json} {ptr : Pointer} {ms : List (String × Json)}
    (h : p.at? v ptr = some (q, .object ms)) : v.isNull = false := by
  cases v with
  | null =>
    cases ptr with
    | nil => cases h
    | cons step rest => cases step <;> cases h
  | _ => rfl

/-- Into trees the pointer goes by a position. -/
theorem exists_index_of_at? {v w : Json} {ptr : Pointer} (h : trees.at? v ptr = some (.tree, w)) :
    ∃ items i u rest, v = .array items ∧ ptr = .index i :: rest ∧ items[i]? = some u ∧
      tree.at? u rest = some (.tree, w) := by
  cases ptr with
  | nil => cases v <;> cases h
  | cons step rest =>
    cases v with
    | object ms =>
      cases step with
      | key name =>
        rw [at?, member?, Option.bind_some] at h
        obtain ⟨u, -, hu⟩ := Option.bind_eq_some_iff.mp h
        cases eq_plain_of_at? hu
      | index i => cases h
    | array items =>
      cases step with
      | key name => cases h
      | index i =>
        rw [at?] at h
        obtain ⟨u, hu, hrest⟩ := Option.bind_eq_some_iff.mp h
        exact ⟨items, i, u, rest, rfl, rfl, hu, hrest⟩
    | _ => cases step <;> cases h

/-- Into a tree the pointer goes by the name of a field of its kind. -/
theorem exists_key_of_at? {ms : List (String × Json)} {step : Step} {rest : Pointer} {w : Json}
    (h : tree.at? (.object ms) (step :: rest) = some (.tree, w)) :
    ∃ name kind sort u, step = .key name ∧ namedKind? ms = some kind ∧
      kind.fieldSort? name = some sort ∧ ms.lookup name = some u ∧
      (ofSort sort).at? u rest = some (.tree, w) := by
  cases step with
  | index i => cases h
  | key name =>
    rw [at?] at h
    obtain ⟨q, hq, h⟩ := Option.bind_eq_some_iff.mp h
    obtain ⟨u, hu, hrest⟩ := Option.bind_eq_some_iff.mp h
    rw [member?] at hq
    split at hq
    next =>
      cases hq
      cases eq_plain_of_at? hrest
    next =>
      obtain ⟨kind, hkind, hq⟩ := Option.bind_eq_some_iff.mp hq
      obtain ⟨sort, hsort, rfl⟩ := Option.map_eq_some_iff.mp hq
      exact ⟨name, kind, sort, u, rfl, hkind, hsort, hu, hrest⟩

/-- Going on from the end of a pointer. -/
theorem at?_append {p q : Place} {v w : Json} {ptr : Pointer} (h : p.at? v ptr = some (q, w))
    (rest : Pointer) : p.at? v (ptr ++ rest) = q.at? w rest := by
  induction ptr generalizing p v with
  | nil => cases v <;> cases h <;> rfl
  | cons step ptr ih =>
    cases v with
    | object ms =>
      cases step with
      | key name =>
        rw [at?] at h
        obtain ⟨p', hp', h⟩ := Option.bind_eq_some_iff.mp h
        obtain ⟨u, hu, hrest⟩ := Option.bind_eq_some_iff.mp h
        rw [List.cons_append, at?, hp', Option.bind_some, hu, Option.bind_some, ih hrest]
      | index i => cases h
    | array items =>
      cases step with
      | key name => cases h
      | index i =>
        rw [at?] at h
        obtain ⟨u, hu, hrest⟩ := Option.bind_eq_some_iff.mp h
        rw [List.cons_append, at?, hu, Option.bind_some, ih hrest]
    | _ => cases step <;> cases h

theorem at?_key {ms : List (String × Json)} {name : String} {kind : Kind} {sort : FieldSort} {w : Json}
    (hkind : namedKind? ms = some kind) (hsort : kind.fieldSort? name = some sort)
    (hw : ms.lookup name = some w) (rest : Pointer) :
    tree.at? (.object ms) (.key name :: rest) = (ofSort sort).at? w rest := by
  have hfree : name ∉ [kindField, ownTagField, underlyingTagField] := by
    intro hname
    rw [fieldSort?_of_reserved hname] at hsort
    cases hsort
  rw [at?, member?, if_neg hfree, hkind, Option.bind_some, hsort, Option.map_some, Option.bind_some, hw,
    Option.bind_some]

end Place

/-! ## One part exchanged

The parts of a form are told apart by their numbers, so that one of them can be exchanged in the field that
has it. -/

theorem Field.map_congr {α β : Type} {c : Field α} {g h : α → β} (hgh : ∀ x ∈ c.parts, g x = h x) :
    c.map g = c.map h := by
  cases c with
  | node x => exact congrArg Field.node (hgh x (.head _))
  | optionalNode x => exact congrArg Field.optionalNode (Form.optionMap_congr hgh)
  | nodes xs => exact congrArg Field.nodes (List.map_congr_left hgh)
  | holes xs =>
    refine congrArg Field.holes (List.map_congr_left fun o ho => Option.map_congr fun x hx => ?_)
    exact hgh x (Form.mem_present.mpr (hx ▸ ho))
  | _ => rfl

namespace Form

variable {α : Type}

/-- A form with its parts numbered. -/
def withNumbers (form : Form α) : Form (Nat × α) := form.mapIdx Prod.mk

theorem map_snd_withNumbers (form : Form α) : form.withNumbers.map Prod.snd = form := by
  rw [withNumbers, map, mapIdx_mapIdx]
  exact mapIdx_eq_self (fun _ _ => rfl) form

theorem setChild_eq_map_withNumbers (i : Nat) (z : α) (form : Form α) :
    form.setChild i z = form.withNumbers.map fun b => if b.1 = i then z else b.2 := by
  rw [withNumbers, map, mapIdx_mapIdx, setChild]

theorem nodup_numbers (form : Form α) :
    (form.withNumbers.toFields.flatMap fun f => f.2.parts.map Prod.fst).Nodup := by
  have hnumbers : form.withNumbers.children.map Prod.fst = List.range form.children.length := by
    rw [withNumbers, children_mapIdx]
    refine List.ext_getElem (by simp) fun i h h' => by simp
  rw [children_eq_parts, List.map_flatMap] at hnumbers
  rw [hnumbers]
  exact List.nodup_range

theorem getElem?_of_mem_withNumbers {form : Form α} {f : String × Field (Nat × α)}
    (hf : f ∈ form.withNumbers.toFields) {i : Nat} {x : α} (hx : (i, x) ∈ f.2.parts) :
    form.children[i]? = some x := by
  have hmem : (i, x) ∈ form.withNumbers.children := by
    rw [children_eq_parts]
    exact List.mem_flatMap.mpr ⟨f, hf, hx⟩
  rw [withNumbers, children_mapIdx] at hmem
  obtain ⟨j, hj, heq⟩ := List.mem_mapIdx.mp hmem
  cases heq
  exact List.getElem?_eq_getElem hj

/-- **A form with one part exchanged** is the form with the field that has it changed. -/
theorem toFields_setChild {form : Form α} {key : String} {c : Field (Nat × α)} {i : Nat} {x : α}
    (hc : form.withNumbers.toFields.lookup key = some c) (hi : (i, x) ∈ c.parts) (z : α) :
    (form.setChild i z).toFields =
      putMember key (c.map fun b => if b.1 = i then z else b.2) form.toFields := by
  obtain ⟨-, hdisjoint⟩ := List.nodup_flatMap.mp form.nodup_numbers
  have hmem : (key, c) ∈ form.withNumbers.toFields := Json.mem_of_lookup hc
  conv_rhs => rw [← map_snd_withNumbers form]
  rw [setChild_eq_map_withNumbers, toFields_map, toFields_map, putMember, List.map_map]
  refine List.map_congr_left fun f hf => ?_
  by_cases hkey : f.1 = key
  · have hlookup := Json.lookup_of_mem form.withNumbers.nodup_toFields (v := f.2) hf
    rw [hkey, hc] at hlookup
    rw [Function.comp_apply, if_pos hkey, hkey, Option.some.inj hlookup]
  · rw [Function.comp_apply, if_neg hkey]
    refine congrArg (Prod.mk f.1) (Field.map_congr fun b hb => if_neg ?_)
    rintro rfl
    have hne : f ≠ (key, c) := fun heq => hkey (congrArg Prod.fst heq)
    have : Std.Symm (Function.onFun List.Disjoint fun f : String × Field (Nat × α) =>
        f.2.parts.map Prod.fst) := ⟨fun _ _ h a ha ha' => h ha' ha⟩
    exact hdisjoint.forall hf hmem hne (List.mem_map_of_mem hb) (List.mem_map.mpr ⟨(b.1, x), hi, rfl⟩)

end Form

/-- A list with one item exchanged, in terms of what the items are made from. -/
theorem List.map_eq_set {α β : Type} {xs : List α} {f g : α → β} {i : Nat} {x : α} {z : β}
    (hx : xs[i]? = some x) (hz : f x = z) (h : ∀ j y, j ≠ i → xs[j]? = some y → f y = g y) :
    xs.map f = (xs.map g).set i z := by
  subst hz
  refine List.ext_getElem? fun j => ?_
  rw [List.getElem?_map, List.getElem?_set, List.getElem?_map]
  by_cases hj : i = j
  · subst hj
    obtain ⟨hi, -⟩ := List.getElem?_eq_some_iff.mp hx
    rw [if_pos rfl, List.length_map, if_pos hi, hx, Option.map_some]
  · rw [if_neg hj]
    exact Option.map_congr fun y hy => h j y (Ne.symm hj) hy

/-- Parts of a list with holes are told apart by their numbers. -/
theorem Form.numbers_ne_of_present {α : Type} {xs : List (Option (Nat × α))}
    (h : ((Form.present xs).map Prod.fst).Nodup) {i j : Nat} {b b' : Nat × α} (hi : xs[i]? = some (some b))
    (hj : xs[j]? = some (some b')) (hne : i ≠ j) : b.1 ≠ b'.1 := by
  induction xs generalizing i j with
  | nil => cases hi
  | cons o xs ih =>
    cases i with
    | zero =>
      cases j with
      | zero => exact absurd rfl hne
      | succ j =>
        obtain rfl : o = some b := Option.some.inj hi
        have hb' : b' ∈ Form.present xs := Form.mem_present.mpr (List.mem_of_getElem? hj)
        exact fun heq => (List.nodup_cons.mp h).1 (heq ▸ List.mem_map_of_mem hb')
    | succ i =>
      cases j with
      | zero =>
        obtain rfl : o = some b' := Option.some.inj hj
        have hb : b ∈ Form.present xs := Form.mem_present.mpr (List.mem_of_getElem? hi)
        exact fun heq => (List.nodup_cons.mp h).1 (heq ▸ List.mem_map_of_mem hb)
      | succ j =>
        have hrest : ((Form.present xs).map Prod.fst).Nodup := by
          cases o with
          | none => exact h
          | some a => exact (List.nodup_cons.mp h).2
        exact ih hrest hi hj fun heq => hne (congrArg _ heq)

/-- Exchanging a part by its number is exchanging it by its position. -/
theorem Form.map_exchange {α : Type} {xs : List (Nat × α)} (h : (xs.map Prod.fst).Nodup) {i : Nat}
    {b : Nat × α} (hi : xs[i]? = some b) (z : α) :
    (xs.map fun b' => if b'.1 = b.1 then z else b'.2) = (xs.map Prod.snd).set i z := by
  refine List.map_eq_set hi (if_pos rfl) fun j b' hj hb' => if_neg fun hnumber => hj ?_
  have hsame : (xs.map Prod.fst)[j]? = (xs.map Prod.fst)[i]? := by
    rw [List.getElem?_map, List.getElem?_map, hi, hb', Option.map_some, Option.map_some, hnumber]
  have hlength : j < (xs.map Prod.fst).length := by
    rw [List.length_map]
    exact (List.getElem?_eq_some_iff.mp hb').1
  exact (List.getElem?_inj hlength h).mp hsame

/-- So it is with holes. -/
theorem Form.map_exchange_present {α : Type} {xs : List (Option (Nat × α))}
    (h : ((Form.present xs).map Prod.fst).Nodup) {i : Nat} {b : Nat × α} (hi : xs[i]? = some (some b))
    (z : α) :
    (xs.map (Option.map fun b' => if b'.1 = b.1 then z else b'.2)) =
      (xs.map (Option.map Prod.snd)).set i (some z) := by
  refine List.map_eq_set hi (congrArg some (if_pos rfl)) fun j o hj ho => ?_
  refine Option.map_congr fun b' hb' => if_neg ?_
  subst hb'
  exact numbers_ne_of_present h ho hi hj

/-! ## Pointers into a field -/

/-- A pointer into the field `c`, which is read from `w`, goes on with `rest` in `u`, and this is what the
part `b` is read from: exchanging the object `ms` at the end exchanges this part. -/
structure Field.Enters (sort : FieldSort) (w : Json) (ptr : Pointer) (ms : List (String × Json))
    (c : Field (Nat × Node)) (u : Json) (rest : Pointer) (b : Nat × Node) : Prop where
  mem_parts : b ∈ c.parts
  length_le : rest.length ≤ ptr.length
  ofPart_eq : Node.ofPart u = .ok b.2
  unrepeated : w.unrepeated = true → u.unrepeated = true
  at?_eq : Place.tree.at? u rest = some (.tree, .object ms)
  ofJson_putAt : ∀ new, Field.ofJson sort (w.putAt ptr (.object new)) =
    (Node.ofPart (u.putAt rest (.object new))).map fun y => c.map fun b' => if b'.1 = b.1 then y else b'.2

namespace Field.Enters

variable {w u : Json} {ptr rest : Pointer} {ms : List (String × Json)} {items : List Json} {j : Nat}

/-- A single part begins where its field does. -/
theorem node {b : Nat × Node} (hread : Node.ofPart w = .ok b.2)
    (hat : Place.tree.at? w ptr = some (.tree, .object ms)) :
    Field.Enters .node w ptr ms (.node b) w ptr b where
  mem_parts := .head _
  length_le := Nat.le_refl _
  ofPart_eq := hread
  unrepeated := id
  at?_eq := hat
  ofJson_putAt new := by
    simp only [Field.map, if_true]
    rfl

/-- So does a part that need not be there: something is read where a pointer leads on. -/
theorem optionalNode {o : Option (Nat × Node)} (hread : Node.ofOptionalPart w = .ok (o.map Prod.snd))
    (hat : Place.tree.at? w ptr = some (.tree, .object ms)) :
    ∃ b, Field.Enters .optionalNode w ptr ms (.optionalNode o) w ptr b := by
  have hw := Place.isNull_of_at? hat
  rw [Node.ofOptionalPart_eq_map hw] at hread
  obtain ⟨x, hx, heq⟩ := Except.map_eq_ok_iff.mp hread
  obtain ⟨b, rfl, rfl⟩ := Option.map_eq_some_iff.mp heq.symm
  refine ⟨b, .head _, Nat.le_refl _, hx, id, hat, fun new => ?_⟩
  rw [Field.ofJson, Node.ofOptionalPart_eq_map (Json.isNull_putAt hw rfl ptr)]
  simp only [Field.map, Option.map_some, if_true]
  cases Node.ofPart (w.putAt ptr (.object new)) <;> rfl

/-- In a list the pointer first takes the step to one of the items. -/
theorem nodes {xs : List (Nat × Node)} (hread : Node.readList items = .ok (xs.map Prod.snd))
    (hnumbers : (xs.map Prod.fst).Nodup) (hu : items[j]? = some u)
    (hat : Place.tree.at? u rest = some (.tree, .object ms)) :
    ∃ b, Field.Enters .nodes (.array items) (.index j :: rest) ms (.nodes xs) u rest b := by
  rw [Node.readList_eq_mapM] at hread
  obtain ⟨b, hb, hub, hset⟩ := Except.exists_of_mapM_eq_ok_map hread hu
  refine ⟨b, List.mem_of_getElem? hb, Nat.le_succ _, hub,
    fun h => Json.unrepeated_array.mp h u (List.mem_of_getElem? hu), hat, fun new => ?_⟩
  rw [Json.putAt_index hu, Field.ofJson, Node.readList_eq_mapM, hset]
  simp only [Field.map, Form.map_exchange hnumbers hb]
  cases Node.ofPart (u.putAt rest (.object new)) <;> rfl

/-- In a list with holes it does the same, and the item is not a hole. -/
theorem holes {xs : List (Option (Nat × Node))}
    (hread : Node.readHoles items = .ok (xs.map (Option.map Prod.snd)))
    (hnumbers : ((Form.present xs).map Prod.fst).Nodup) (hu : items[j]? = some u)
    (hat : Place.tree.at? u rest = some (.tree, .object ms)) :
    ∃ b, Field.Enters .holes (.array items) (.index j :: rest) ms (.holes xs) u rest b := by
  have hnull := Place.isNull_of_at? hat
  rw [Node.readHoles_eq_mapM] at hread
  obtain ⟨o, ho, huo, hset⟩ := Except.exists_of_mapM_eq_ok_map hread hu
  rw [Node.ofOptionalPart_eq_map hnull] at huo
  obtain ⟨x, hux, heq⟩ := Except.map_eq_ok_iff.mp huo
  obtain ⟨b, rfl, rfl⟩ := Option.map_eq_some_iff.mp heq.symm
  refine ⟨b, Form.mem_present.mpr (List.mem_of_getElem? ho), Nat.le_succ _, hux,
    fun h => Json.unrepeated_array.mp h u (List.mem_of_getElem? hu), hat, fun new => ?_⟩
  rw [Json.putAt_index hu, Field.ofJson, Node.readHoles_eq_mapM, hset,
    Node.ofOptionalPart_eq_map (Json.isNull_putAt hnull rfl rest)]
  simp only [Field.map, Form.map_exchange_present hnumbers ho]
  cases Node.ofPart (u.putAt rest (.object new)) <;> rfl

end Field.Enters

/-- **A pointer into a field leads to one of its parts**, and on from there; exchanging what is at its end
exchanges that part. -/
theorem Field.exists_enters {sort : FieldSort} {w : Json} {ptr : Pointer} {ms : List (String × Json)}
    {c : Field (Nat × Node)} (hread : Field.ofJson sort w = .ok (c.map Prod.snd))
    (hnumbers : (c.parts.map Prod.fst).Nodup)
    (hat : (Place.ofSort sort).at? w ptr = some (.tree, .object ms)) :
    ∃ u rest b, Field.Enters sort w ptr ms c u rest b := by
  cases sort with
  | node =>
    obtain ⟨x, hx, heq⟩ := Except.map_eq_ok_iff.mp hread
    cases c with
    | node b =>
      cases heq
      exact ⟨w, ptr, b, .node hx hat⟩
    | _ => cases heq
  | optionalNode =>
    obtain ⟨o, ho, heq⟩ := Except.map_eq_ok_iff.mp hread
    cases c with
    | optionalNode o =>
      cases heq
      exact ⟨w, ptr, Field.Enters.optionalNode ho hat⟩
    | _ => cases heq
  | nodes =>
    obtain ⟨items, j, u, rest, rfl, rfl, hu, hrest⟩ := Place.exists_index_of_at? hat
    obtain ⟨ns, hns, heq⟩ := Except.map_eq_ok_iff.mp hread
    cases c with
    | nodes xs =>
      cases heq
      exact ⟨u, rest, Field.Enters.nodes hns hnumbers hu hrest⟩
    | _ => cases heq
  | holes =>
    obtain ⟨items, j, u, rest, rfl, rfl, hu, hrest⟩ := Place.exists_index_of_at? hat
    obtain ⟨os, hos, heq⟩ := Except.map_eq_ok_iff.mp hread
    cases c with
    | holes xs =>
      cases heq
      exact ⟨u, rest, Field.Enters.holes hos hnumbers hu hrest⟩
    | _ => cases heq
  | _ => cases Place.eq_plain_of_at? hat

/-- **A part of a field stands at the end of a pointer into it.** -/
theorem Field.exists_pointer {sort : FieldSort} {w : Json} {c : Field Node} {x : Node}
    (hread : Field.ofJson sort w = .ok c) (hx : x ∈ c.parts) :
    ∃ u ptr, (Place.ofSort sort).at? w ptr = some (.tree, u) ∧ Node.ofPart u = .ok x ∧
      (w.unrepeated = true → u.unrepeated = true) := by
  have hsome {v : Json} (hv : Node.ofOptionalPart v = .ok (some x)) : Node.ofPart v = .ok x := by
    rw [Node.ofOptionalPart] at hv
    split at hv
    next => cases hv
    next =>
      obtain ⟨y, hy, heq⟩ := Except.map_eq_ok_iff.mp hv
      rw [hy, Option.some.inj heq]
  have hnil {p : Place} (v : Json) : p.at? v [] = some (p, v) := by
    cases v <;> rfl
  cases sort with
  | node =>
    obtain ⟨y, hy, rfl⟩ := Except.map_eq_ok_iff.mp hread
    cases List.mem_singleton.mp hx
    exact ⟨w, [], hnil w, hy, id⟩
  | optionalNode =>
    obtain ⟨o, ho, rfl⟩ := Except.map_eq_ok_iff.mp hread
    cases Option.mem_toList.mp hx
    exact ⟨w, [], hnil w, hsome ho, id⟩
  | nodes =>
    cases w with
    | array items =>
      obtain ⟨ns, hns, rfl⟩ := Except.map_eq_ok_iff.mp hread
      rw [Node.readList_eq_mapM] at hns
      obtain ⟨i, u, hu, hux⟩ := Except.exists_of_mem_mapM hns hx
      refine ⟨u, [.index i], ?_, hux, fun h => Json.unrepeated_array.mp h u (List.mem_of_getElem? hu)⟩
      rw [Place.at?, hu, Option.bind_some]
      exact hnil u
    | _ => cases hread
  | holes =>
    cases w with
    | array items =>
      obtain ⟨os, hos, rfl⟩ := Except.map_eq_ok_iff.mp hread
      rw [Node.readHoles_eq_mapM] at hos
      obtain ⟨i, u, hu, hux⟩ := Except.exists_of_mem_mapM hos (Form.mem_present.mp hx)
      refine ⟨u, [.index i], ?_, hsome hux,
        fun h => Json.unrepeated_array.mp h u (List.mem_of_getElem? hu)⟩
      rw [Place.at?, hu, Option.bind_some]
      exact hnil u
    | _ => cases hread
  | _ =>
    obtain ⟨y, -, rfl⟩ := Except.map_eq_ok_iff.mp hread
    cases hx

/-! ## Nodes along a pointer -/

namespace Node

/-- Only objects are read as nodes. -/
theorem eq_object_of_ofPart {v : Json} {n : Node} (h : ofPart v = .ok n) : ∃ ms, v = .object ms := by
  cases v with
  | object ms => exact ⟨ms, rfl⟩
  | _ => cases h

/-- **An object that is read as a node is a node of the tree, and exchanging one exchanges the other**: what
is wrong with the new object is the error, and nothing else is read otherwise. -/
theorem exists_path {v : Json} {n : Node} {ms : List (String × Json)} (ptr : Pointer)
    (hv : v.unrepeated = true) (hn : ofPart v = .ok n)
    (hat : Place.tree.at? v ptr = some (.tree, .object ms)) :
    ∃ p m, n.at? p = some m ∧ ofPart (.object ms) = .ok m ∧ (Json.object ms).unrepeated = true ∧
      ∀ new, ofPart (v.putAt ptr (.object new)) = (ofPart (.object new)).map (n.setAt p) := by
  obtain ⟨ns, rfl⟩ := eq_object_of_ofPart hn
  cases ptr with
  | nil =>
    cases hat
    refine ⟨[], n, at?_nil n, hn, hv, fun new => ?_⟩
    rw [Json.putAt_nil]
    cases ofPart (.object new) with
    | error e => rfl
    | ok m => exact congrArg _ (setAt_nil n m).symm
  | cons step ptr =>
    obtain ⟨name, kind, sort, w, rfl, hkind, hsort, hw, hrest⟩ := Place.exists_key_of_at? hat
    have hkeys := (Json.unrepeated_object.mp hv).1
    obtain ⟨tags, fields, hsays⟩ := exists_says hkeys hn
    obtain rfl : n.kind = kind := Option.some.inj ((namedKind?_of_slot hsays.kind).symm.trans hkind)
    obtain ⟨c, hc, hlookup⟩ := hsays.exists_field hsort hw
    rw [← Form.map_snd_withNumbers n.form, Form.toFields_map, Json.lookup_map_values] at hlookup
    obtain ⟨d, hd, rfl⟩ := Option.map_eq_some_iff.mp hlookup
    have hmem := Json.mem_of_lookup hd
    -- the field takes one step of the pointer or two, and the rest of it leads on in the part
    obtain ⟨u, rest, ⟨i, x⟩, henters⟩ :=
      Field.exists_enters hc ((List.nodup_flatMap.mp n.form.nodup_numbers).1 _ hmem) hrest
    have hshort : rest.length ≤ ptr.length := henters.length_le
    have hchild : n.children[i]? = some x := Form.getElem?_of_mem_withNumbers hmem henters.mem_parts
    obtain ⟨p, m, hm, hread, hunrepeated, hexchange⟩ :=
      exists_path rest (henters.unrepeated (Json.unrepeated_of_lookup hv hw)) henters.ofPart_eq
        henters.at?_eq
    refine ⟨i :: p, m, ?_, hread, hunrepeated, fun new => ?_⟩
    · rw [at?_cons, hchild, Option.bind_some, hm]
    · have hfield := henters.ofJson_putAt new
      rw [hexchange] at hfield
      rw [Json.putAt_key hw]
      have hputs := Json.puts_putMember (w := w.putAt ptr (.object new)) hkeys hw
      cases hnew : ofPart (.object new) with
      | error e =>
        rw [hnew] at hfield
        exact ofPart_of_puts_unreadable hkeys hn hsort hputs hfield
      | ok y =>
        rw [hnew] at hfield
        refine (ofPart_of_puts hkeys hn hsort hputs (slot_none_some.mpr ⟨_, hfield, rfl⟩) rfl
          (Form.kind_setChild i (x.setAt p y) n.form)
          (Form.toFields_setChild hd henters.mem_parts _)).trans ?_
        rw [← setAt_cons_of_children hchild]
        rfl
termination_by ptr.length
decreasing_by
  subst_vars
  exact Nat.lt_succ_of_le hshort

/-- **Every node of the tree stands in the document**, as an object that is read as a node. -/
theorem exists_pointer {v : Json} {n m : Node} {p : Path} (hv : v.unrepeated = true) (hn : ofPart v = .ok n)
    (hm : n.at? p = some m) :
    ∃ ptr ms, Place.tree.at? v ptr = some (.tree, .object ms) ∧ ofPart (.object ms) = .ok m := by
  induction p generalizing v n with
  | nil =>
    obtain ⟨ns, rfl⟩ := eq_object_of_ofPart hn
    cases (at?_nil n).symm.trans hm
    exact ⟨[], ns, rfl, hn⟩
  | cons i p ih =>
    obtain ⟨ns, rfl⟩ := eq_object_of_ofPart hn
    rw [at?_cons] at hm
    obtain ⟨x, hx, hm⟩ := Option.bind_eq_some_iff.mp hm
    obtain ⟨tags, fields, hsays⟩ := exists_says (Json.unrepeated_object.mp hv).1 hn
    obtain ⟨name, sort, w, c, hsort, hw, hread, hxc⟩ := hsays.exists_given (List.mem_of_getElem? hx)
    obtain ⟨u, rest, hat, hux, hu⟩ := Field.exists_pointer hread hxc
    obtain ⟨ptr, ms, hptr, hms⟩ := ih (hu (Json.unrepeated_of_lookup hv hw)) hux hm
    refine ⟨.key name :: (rest ++ ptr), ms, ?_, hms⟩
    rw [Place.at?_key (namedKind?_of_slot hsays.kind) hsort hw, Place.at?_append hat, hptr]

end Node

end RepairCorpus
