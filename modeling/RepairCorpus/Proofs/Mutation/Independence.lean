import RepairCorpus.Proofs.Mutation.InPlaceEdits
import RepairCorpus.Proofs.Syntax.Places

/-!
# Independent detachments

A candidate is named by a path, and a detachment can change what paths mean: statements spliced into
a list move the ones behind them, and a statement that moves up brings its parts with it.  None of
this is felt at a place whose path parts ways with the owner's.  Nor is it felt at the other places
of an owner with room for one statement in each, because there the parts keep their numbers.

* `Node.detach_detach`: of two independent detachments each one can be made after the other, with the
  same patch, and both orders give one tree.
* `Edit.independent_edits_commute`: **so can the edits in place, and both undos, in either order, lead
  back to the first tree**.
-/

namespace RepairCorpus

/-- Two candidates of a tree whose detachments have nothing to do with each other. -/
inductive Candidate.Independent (tree : Node) (c d : Candidate) : Prop
  /-- Neither owner is at the other one or above it. -/
  | apart : ¬ c.owner <+: d.owner → ¬ d.owner <+: c.owner → Candidate.Independent tree c d
  /-- They are in two places of one owner that has room for one statement in each. -/
  | beside {owner : Node} : c.owner = d.owner → tree.at? c.owner = some owner →
    owner.form.hasSlots = true → c.index ≠ d.index → Candidate.Independent tree c d

/-! ## Two places of one owner -/

namespace Form

theorem statements?_eq_none {α : Type} {form : Form α} (h : form.hasSlots = true) :
    form.statements? = none := by
  cases form <;> first | rfl | exact absurd h Bool.false_ne_true

theorem hasSlots_setChild {α : Type} (form : Form α) (i : Nat) (x : α) :
    (form.setChild i x).hasSlots = form.hasSlots := by
  rw [hasSlots, hasSlots, kind_setChild]

variable {form : Form Node} (hslots : form.hasSlots = true)

include hslots

/-- A detachment from one place of an owner replaces what stands there. -/
theorem detach_eq_ok_iff_of_hasSlots {form' : Form Node} {i : Nat} {frame : TryFrame}
    {exposure : Exposure} :
    form.detach i = .ok (form', frame, exposure) ↔
      ∃ n o, form.children[i]? = some n ∧ OpenedTry.ofNode n = .ok o ∧
        form.setChild i o.standIn.1 = form' ∧ o.frame = frame ∧ o.standIn.2 = exposure := by
  have hgives : form.kind.givesUpTry = true := by rw [givesUpTry_kind, hslots, Bool.or_true]
  rw [detach_eq_ok_iff, and_iff_right hgives]
  refine exists_congr fun n => exists_congr fun o => and_congr_right fun _ =>
    and_congr_right fun _ => ?_
  rw [exposed_of_no_list (statements?_eq_none hslots), Prod.mk.injEq, and_assoc,
    and_comm (a := o.standIn.2 = exposure)]

/-- The other places do not matter for a detachment, nor does the detachment for them. -/
theorem detach_setChild {form' : Form Node} {i j : Nat} {frame : TryFrame} {exposure : Exposure}
    (hij : i ≠ j) (h : form.detach j = .ok (form', frame, exposure)) (x : Node) :
    (form.setChild i x).detach j = .ok (form'.setChild i x, frame, exposure) := by
  obtain ⟨n, o, hn, ho, rfl, rfl, rfl⟩ := (detach_eq_ok_iff_of_hasSlots hslots).mp h
  refine (detach_eq_ok_iff_of_hasSlots ((hasSlots_setChild form i x).trans hslots)).mpr
    ⟨n, o, ?_, ho, setChild_comm hij _ _ _, rfl, rfl⟩
  rw [children_setChild_of_ne hij, hn]

end Form

/-! ## Two detachments -/

namespace Node

variable {root t₁ t₂ : Node} {c d : Candidate} {p q : Patch}

/-- **Of two independent detachments each can be made after the other**, with the same patch, and the
trees at the end are the same. -/
theorem detach_detach (hc : root.detach c = .ok (t₁, p)) (hd : root.detach d = .ok (t₂, q))
    (h : Candidate.Independent root c d) :
    ∃ t, t₁.detach d = .ok (t, q) ∧ t₂.detach c = .ok (t, p) := by
  obtain ⟨owner, form, frame, exposure, howner, hform, rfl, rfl⟩ := detach_eq_ok_iff.mp hc
  obtain ⟨owner', form', frame', exposure', howner', hform', rfl, rfl⟩ := detach_eq_ok_iff.mp hd
  cases h with
  | apart hcd hdc =>
    refine ⟨_, detach_eq_ok_iff.mpr ⟨owner', form', frame', exposure', ?_, hform', rfl, rfl⟩,
      detach_eq_ok_iff.mpr ⟨owner, form, frame, exposure, ?_, hform, ?_, rfl⟩⟩
    · rw [at?_setAt hcd hdc, howner']
    · rw [at?_setAt hdc hcd, howner]
    · exact setAt_comm hdc hcd _ _
  | beside hsame hat hslots hij =>
    obtain ⟨path, i⟩ := c
    obtain ⟨path', j⟩ := d
    obtain rfl : path = path' := hsame
    cases hat.symm.trans howner
    cases hat.symm.trans howner'
    obtain ⟨n, o, -, -, hx, -⟩ := (Form.detach_eq_ok_iff_of_hasSlots hslots).mp hform
    obtain ⟨n', o', -, -, hx', -⟩ := (Form.detach_eq_ok_iff_of_hasSlots hslots).mp hform'
    have hboth : form'.setChild i o.standIn.1 = form.setChild j o'.standIn.1 := by
      rw [← hx, ← hx']
      exact Form.setChild_comm hij.symm _ _ _
    have hlater := Form.detach_setChild hslots hij hform' o.standIn.1
    have hlater' := Form.detach_setChild hslots hij.symm hform o'.standIn.1
    rw [hx] at hlater
    rw [hx', ← hboth] at hlater'
    refine ⟨_, detach_eq_ok_iff.mpr ⟨owner.withForm form, _, frame', exposure',
      at?_setAt_self hat _, hlater, rfl, rfl⟩, detach_eq_ok_iff.mpr ⟨owner.withForm form', _, frame,
      exposure, at?_setAt_self hat _, hlater', ?_, rfl⟩⟩
    rw [setAt_setAt hat, setAt_setAt hat]
    rfl

end Node

namespace Edit

/-- What a detachment in place hands out is kept of a patch. -/
theorem run_detach_eq_ok_iff {c : Candidate} {root t : Node} {u : Undo} :
    (detach c).run root = .ok u t ↔ ∃ p, root.detach c = .ok (t, p) ∧ p.undo = u := by
  rw [detach_eq, allOrNothing_eq_ok_iff, Except.map_eq_ok_iff]
  constructor
  · rintro ⟨⟨t, p⟩, hp, heq⟩
    obtain ⟨rfl, rfl⟩ := Prod.mk.inj heq
    exact ⟨p, hp, rfl⟩
  · rintro ⟨p, hp, rfl⟩
    exact ⟨(t, p), hp, rfl⟩

/-- An undo leads back to the tree before its detachment. -/
theorem run_restore_of_detach {c : Candidate} {root t : Node} {p : Patch}
    (h : root.detach c = .ok (t, p)) : (restore p.undo).run t = .ok () root := by
  rw [restore_undo, Node.restore_detach h]
  rfl

/-- **Independent detachments commute.**  If two independent candidates can each be detached, they
can be detached one after the other; both orders give the same tree and the same two undos, and both
orders of undoing lead back. -/
theorem independent_edits_commute {root t₁ t₂ : Node} {c d : Candidate} {p q : Undo}
    (hc : (detach c).run root = .ok p t₁) (hd : (detach d).run root = .ok q t₂)
    (h : Candidate.Independent root c d) :
    ∃ t, (do let p ← detach c; let q ← detach d; return (p, q) : Edit (Undo × Undo)).run root
        = .ok (p, q) t ∧
      (do let q ← detach d; let p ← detach c; return (p, q) : Edit (Undo × Undo)).run root
        = .ok (p, q) t ∧
      (do restore p; restore q : Edit Unit).run t = .ok () root ∧
      (do restore q; restore p : Edit Unit).run t = .ok () root := by
  obtain ⟨p, hp, rfl⟩ := run_detach_eq_ok_iff.mp hc
  obtain ⟨q, hq, rfl⟩ := run_detach_eq_ok_iff.mp hd
  obtain ⟨t, hqp, hpq⟩ := Node.detach_detach hp hq h
  refine ⟨t, ?_, ?_, ?_, ?_⟩
  · rw [bind_of_ok hc, bind_of_ok (run_detach_eq_ok_iff.mpr ⟨q, hqp, rfl⟩)]
    rfl
  · rw [bind_of_ok hd, bind_of_ok (run_detach_eq_ok_iff.mpr ⟨p, hpq, rfl⟩)]
    rfl
  · rw [bind_of_ok (run_restore_of_detach hpq), run_restore_of_detach hq]
  · rw [bind_of_ok (run_restore_of_detach hqp), run_restore_of_detach hp]

/-- A conditional with a try statement in either branch, beside a block with a third one.  The two
in the branches share their owner, and the third is in an owner of its own. -/
def threeTries : Node :=
  let guarded (body : List Node) : Node :=
    Node.untagged (.tryStatement (Node.untagged (.blockStatement body)) none none)
  let inherited : Node := ⟨.inherited, .inherited, .emptyStatement⟩
  Node.untagged (.program
    [Node.untagged (.ifStatement (Node.untagged .thisExpression) (guarded [inherited])
        (some (guarded []))),
      Node.untagged (.blockStatement [guarded [inherited, Node.untagged .debuggerStatement]])])

/-- Both kinds of independence occur. -/
theorem threeTries_edits_commute :
    (∃ p q t₁ t₂, (detach ⟨[0], 1⟩).run threeTries = .ok p t₁ ∧
      (detach ⟨[0], 2⟩).run threeTries = .ok q t₂ ∧
      Candidate.Independent threeTries ⟨[0], 1⟩ ⟨[0], 2⟩ ∧
      ∃ t, (do restore p; restore q : Edit Unit).run t = .ok () threeTries) ∧
    ∃ p q t₁ t₂, (detach ⟨[0], 2⟩).run threeTries = .ok p t₁ ∧
      (detach ⟨[1], 0⟩).run threeTries = .ok q t₂ ∧
      Candidate.Independent threeTries ⟨[0], 2⟩ ⟨[1], 0⟩ ∧
      ∃ t, (do restore p; restore q : Edit Unit).run t = .ok () threeTries := by
  have hbeside : Candidate.Independent threeTries ⟨[0], 1⟩ ⟨[0], 2⟩ :=
    .beside rfl rfl rfl (by decide)
  have hapart : Candidate.Independent threeTries ⟨[0], 2⟩ ⟨[1], 0⟩ :=
    .apart (by decide) (by decide)
  obtain ⟨t, -, -, ht, -⟩ := independent_edits_commute rfl rfl hbeside
  obtain ⟨t', -, -, ht', -⟩ := independent_edits_commute rfl rfl hapart
  exact ⟨⟨_, _, _, _, rfl, rfl, hbeside, t, ht⟩, _, _, _, _, rfl, rfl, hapart, t', ht'⟩

end Edit

end RepairCorpus
