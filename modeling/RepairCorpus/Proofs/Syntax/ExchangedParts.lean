import RepairCorpus.Proofs.Syntax.ReadPlaces
import RepairCorpus.Proofs.Syntax.Refs

/-!
# Edits change one part

Writing through a reference exchanges one part of a node.  What stays is everything else that can be said of
the node: its kind, its tags, and its fields with the parts blotted out, so that operators, names and flags
can still be read, and of lists, options and holes how they are filled but not with what.

Kind, outline and parts together determine a form (`Form.eq_of_outline`), so nothing about a node is left
open by saying which of them change.  An edit further down is an exchange at every node that its path leads
through.

* `Form.outline`: the fields of a form without its parts.
* `Node.Exchanged`: one node is another with one part exchanged.
* `Node.edits_through_references`: **references show the children, and writing through one exchanges that
  child and nothing else**, also along a path.
-/

namespace RepairCorpus

variable {α β : Type}

/-! ## Outlines -/

namespace Field

/-- A field with its parts blotted out. -/
def outline (c : Field α) : Field Unit := c.map fun _ => ()

theorem outline_map (g : α → β) (c : Field α) : (c.map g).outline = c.outline := by
  cases c with
  | optionalNode x => exact congrArg optionalNode (Option.map_map _ g x)
  | nodes xs => exact congrArg nodes List.map_map
  | holes xs =>
    refine congrArg holes (List.map_map.trans (List.map_congr_left fun x _ => ?_))
    exact Option.map_map _ g x
  | _ => rfl

end Field

/-- Lists with holes at the same positions and the same elements besides are the same. -/
theorem Form.eq_of_present {xs ys : List (Option α)}
    (hholes : xs.map (Option.map fun _ => ()) = ys.map (Option.map fun _ => ()))
    (hpresent : Form.present xs = Form.present ys) : xs = ys := by
  induction xs generalizing ys with
  | nil => exact (List.map_eq_nil_iff.mp hholes.symm).symm
  | cons x xs ih =>
    cases ys with
    | nil => cases hholes
    | cons y ys =>
      obtain ⟨hhead, htail⟩ := List.cons.inj hholes
      cases x with
      | none =>
        cases y with
        | none => rw [ih htail hpresent]
        | some y => cases hhead
      | some x =>
        cases y with
        | none => cases hhead
        | some y =>
          obtain ⟨hxy, hrest⟩ := List.cons.inj hpresent
          rw [hxy, ih htail hrest]

namespace Field

/-- Fields with the same outline have as many parts. -/
theorem length_parts_of_outline {c d : Field α} (h : c.outline = d.outline) :
    c.parts.length = d.parts.length := by
  have hcount (c : Field α) : c.outline.parts.length = c.parts.length := by
    cases c with
    | optionalNode x => cases x <;> rfl
    | nodes xs => exact List.length_map _
    | holes xs =>
      rw [outline, map, parts, parts, ← Form.mapPresentIdx_const _ xs 0, Form.present_mapPresentIdx,
        List.length_mapIdx]
    | _ => rfl
  rw [← hcount, h, hcount]

/-- A field is known by its outline and its parts. -/
theorem eq_of_outline {c d : Field α} (houtline : c.outline = d.outline) (hparts : c.parts = d.parts) :
    c = d := by
  cases c with
  | node x =>
    cases d with
    | node y => rw [List.head_eq_of_cons_eq hparts]
    | _ => cases houtline
  | optionalNode x =>
    cases d with
    | optionalNode y => cases x <;> cases y <;> cases hparts <;> rfl
    | _ => cases houtline
  | nodes xs =>
    cases d with
    | nodes ys => exact congrArg nodes hparts
    | _ => cases houtline
  | holes xs =>
    cases d with
    | holes ys => rw [Form.eq_of_present (Field.holes.inj houtline) hparts]
    | _ => cases houtline
  -- the other fields have no parts and are their own outlines
  | text s =>
    cases d <;> cases houtline
    rfl
  | flag a =>
    cases d <;> cases houtline
    rfl
  | value v =>
    cases d <;> cases houtline
    rfl
  | regex r =>
    cases d <;> cases houtline
    rfl

end Field

namespace Form

/-- The fields of a form with the parts blotted out. -/
def outline (form : Form α) : List (String × Field Unit) := form.toFields.map fun f => (f.1, f.2.outline)

theorem outline_map (g : α → β) (form : Form α) : (form.map g).outline = form.outline := by
  rw [outline, toFields_map, List.map_map]
  exact List.map_congr_left fun f _ => congrArg (Prod.mk f.1) (f.2.outline_map g)

/-- Exchanging a part does not show in the outline. -/
theorem outline_setChild (i : Nat) (x : α) (form : Form α) : (form.setChild i x).outline = form.outline := by
  -- both are made from the form with its parts numbered, by changes that drop the numbers
  rw [setChild_eq_map_withNumbers, outline_map, ← outline_map Prod.snd, map_snd_withNumbers]

/-- **A form is known by its kind, its outline and its parts.** -/
theorem eq_of_outline {form form' : Form α} (hkind : form.kind = form'.kind)
    (houtline : form.outline = form'.outline) (hparts : form.children = form'.children) : form = form' := by
  have hfields : form.toFields = form'.toFields := by
    rw [children_eq_parts, children_eq_parts] at hparts
    rw [outline, outline] at houtline
    generalize form.toFields = fs at houtline hparts
    generalize form'.toFields = gs at houtline hparts
    induction fs generalizing gs with
    | nil => exact (List.map_eq_nil_iff.mp houtline.symm).symm
    | cons f fs ih =>
      cases gs with
      | nil => cases houtline
      | cons g gs =>
        obtain ⟨hhead, htail⟩ := List.cons.inj houtline
        obtain ⟨hname, hfield⟩ := Prod.mk.inj hhead
        rw [List.flatMap_cons, List.flatMap_cons] at hparts
        obtain ⟨hhere, hrest⟩ := List.append_inj hparts (Field.length_parts_of_outline hfield)
        rw [Prod.ext hname (Field.eq_of_outline hfield hhere), ih _ htail hrest]
  exact eq_of_toFields hkind hfields

end Form

/-! ## Exchanges -/

namespace Node

/-- `Exchanged n i c m` holds if `m` is the node `n` with `c` in the place of its child number `i`, and with
everything else as it was. -/
structure Exchanged (n : Node) (i : Nat) (c m : Node) : Prop where
  kind : m.kind = n.kind
  own : m.own = n.own
  underlying : m.underlying = n.underlying
  outline : m.form.outline = n.form.outline
  children : m.children = n.children.set i c

/-- There is one node with a part exchanged. -/
theorem exchanged_iff {n c m : Node} {i : Nat} :
    n.Exchanged i c m ↔ m = n.withForm (n.form.setChild i c) := by
  constructor
  · intro h
    have hform : m.form = n.form.setChild i c := by
      refine Form.eq_of_outline (h.kind.trans (Form.kind_setChild i c n.form).symm) ?_ ?_
      · rw [h.outline, Form.outline_setChild]
      · exact h.children.trans (Form.children_setChild i c n.form).symm
    obtain ⟨own, underlying, form⟩ := m
    obtain rfl : own = n.own := h.own
    obtain rfl : underlying = n.underlying := h.underlying
    rw [← hform]
    rfl
  · rintro rfl
    exact ⟨Form.kind_setChild i c n.form, rfl, rfl, Form.outline_setChild i c n.form,
      Form.children_setChild i c n.form⟩

/-- A node on the way to an edit has one part exchanged for one that has been edited. -/
theorem exchanged_setAt {n b : Node} {i : Nat} (hb : n.children[i]? = some b) (p : Path) (c : Node) :
    n.Exchanged i (b.setAt p c) (n.setAt (i :: p) c) :=
  exchanged_iff.mpr (setAt_cons_of_children hb p c)

/-- **References show the children, and writing through one exchanges that child and nothing else.**

The references of a node hold its children in order, and what is written through the reference with a number
gives the node in which the child with that number has been exchanged: of the same kind, with the same tags
and the same outline, and with the same other children.  There is no other node that could be said of.

A path leads to a reference if it leads to a node, and the reference holds that node.  What is written through
it is found at the path and, with what is below it, below the path.  At paths that are neither above nor below
everything is as it was; and a node that the path leads through has the child on the way exchanged for what
is there now, and nothing else. -/
theorem edits_through_references (n : Node) :
    n.refs.map Ref.held = n.children ∧
    (∀ i r, n.refs[i]? = some r → ∀ c m, r.fill c = m ↔ n.Exchanged i c m) ∧
    ∀ p, (n.refAt? p).map Ref.held = n.at? p ∧
      ∀ r, n.refAt? p = some r → ∀ c,
        (∀ q, (r.fill c).at? (p ++ q) = c.at? q) ∧
        (∀ q, ¬ p <+: q → ¬ q <+: p → (r.fill c).at? q = n.at? q) ∧
        ∀ q i s, p = q ++ i :: s → ∃ a b m, n.at? q = some a ∧ (r.fill c).at? q = some m ∧
          (r.fill c).at? (q ++ [i]) = some b ∧ a.Exchanged i b m := by
  refine ⟨?_, ?_, fun p => ⟨?_, ?_⟩⟩
  · refine List.ext_getElem? fun i => ?_
    rw [List.getElem?_map, getElem?_refs, Option.map_map]
    exact Option.map_id_apply
  · intro i r hr c m
    rw [getElem?_refs] at hr
    obtain ⟨x, -, rfl⟩ := Option.map_eq_some_iff.mp hr
    rw [exchanged_iff, eq_comm]
  · rw [refAt?_eq, Option.map_map]
    exact Option.map_id_apply
  · intro r hr c
    rw [refAt?_eq] at hr
    obtain ⟨x, hx, rfl⟩ := Option.map_eq_some_iff.mp hr
    refine ⟨fun q => ?_, fun q hpq hqp => at?_setAt hpq hqp c, ?_⟩
    · rw [at?_append_of_at? (at?_setAt_self hx c)]
    · rintro q i s rfl
      rw [at?_append] at hx
      obtain ⟨a, ha, hbelow⟩ := Option.bind_eq_some_iff.mp hx
      rw [at?_cons] at hbelow
      obtain ⟨b, hb, -⟩ := Option.bind_eq_some_iff.mp hbelow
      have hset := setAt_append ha (i :: s) c
      have hexchanged := exchanged_setAt hb s c
      have hat : (n.setAt (q ++ i :: s) c).at? q = some (a.setAt (i :: s) c) := by
        rw [hset, at?_setAt_self ha]
      have hlt : i < a.children.length := (List.getElem?_eq_some_iff.mp hb).1
      refine ⟨a, b.setAt s c, a.setAt (i :: s) c, ha, hat, ?_, hexchanged⟩
      rw [at?_append_of_at? hat, at?_singleton, hexchanged.children, List.getElem?_set_self hlt]

/-- A hole in front of the exchanged element stays, and does not count. -/
example (a b c : Node) :
    (untagged (.arrayExpression [some a, none, some b])).refs[1]?.map (·.fill c)
      = some (untagged (.arrayExpression [some a, none, some c])) := rfl

end Node

end RepairCorpus
