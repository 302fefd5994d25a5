import RepairCorpus.Syntax.Ref

/-!
# References hold the children

`Form.children` and `Form.refs` go through the same forty-four constructs independently of each
other.  Reading a part by its number and writing one by its number go together only because the two
agree, absent options and holes included.

* `Form.refs_eq_mapIdx`: the references of a construct hold its children, and filling one is
  `setChild`.
* `Node.refAt?_eq`: **a path leads an edit to the node that it leads a reader to**, and filling the
  reference there is `setAt`.
-/

namespace RepairCorpus

section Lists

variable {α β : Type}

/-- Changing the entry with one number, where the numbers count from `k`. -/
theorem mapIdx_ite_add (xs : List α) (k i : Nat) (y : α) :
    (xs.mapIdx fun j z => if k + j = i then y else z) = if k ≤ i then xs.set (i - k) y else xs := by
  refine List.ext_getElem? fun j => ?_
  rw [List.getElem?_mapIdx]
  by_cases hk : k ≤ i
  · rw [if_pos hk, List.getElem?_set]
    grind
  · rw [if_neg hk]
    grind

theorem mapIdx_ite (xs : List α) (i : Nat) (y : α) :
    (xs.mapIdx fun j z => if j = i then y else z) = xs.set i y := by
  simpa using mapIdx_ite_add xs 0 i y

/-- Numbers in front of the first one are nobody's. -/
theorem mapPresentIdx_ite_of_lt (xs : List (Option α)) {start i : Nat} (h : i < start) (y : α) :
    Form.mapPresentIdx start (fun j z => if j = i then y else z) xs = xs := by
  induction xs generalizing start with
  | nil => rfl
  | cons x xs ih =>
    cases x with
    | none => rw [Form.mapPresentIdx, ih h]
    | some x => rw [Form.mapPresentIdx, ih (Nat.lt_succ_of_lt h), if_neg (Nat.ne_of_gt h)]

namespace Ref

theorem ofList_eq_mapIdx (xs : List α) (f : List α → β) :
    ofList xs f = xs.mapIdx fun i x => ⟨x, fun y => f (xs.set i y)⟩ := by
  induction xs generalizing f with
  | nil => rfl
  | cons x xs ih =>
    rw [ofList, ih, List.mapIdx_cons]
    rfl

theorem ofHoles_eq_mapIdx (xs : List (Option α)) (f : List (Option α) → β) (start : Nat) :
    ofHoles xs f = (Form.present xs).mapIdx fun i x =>
      ⟨x, fun y => f (Form.mapPresentIdx start (fun j z => if j = start + i then y else z) xs)⟩ := by
  induction xs generalizing f start with
  | nil => rfl
  | cons x xs ih =>
    cases x with
    | none =>
      rw [ofHoles, ih _ start]
      rfl
    | some x =>
      rw [ofHoles, ih _ (start + 1), Form.present_some_cons, List.mapIdx_cons]
      simp only [Form.mapPresentIdx, Nat.add_zero, if_true,
        mapPresentIdx_ite_of_lt xs (Nat.lt_succ_self start), Nat.left_eq_add, Nat.add_eq_zero_iff,
        Nat.one_ne_zero, and_false, if_false, Nat.add_right_comm start 1, Nat.add_assoc start]

end Ref

end Lists

open Ref

/-- **The refs of a construct hold its children in the same order, and filling one puts a part in
the place of the child with its number.** -/
theorem Form.refs_eq_mapIdx {α : Type} (form : Form α) :
    form.refs = form.children.mapIdx fun i x => ⟨x, fun y => form.setChild i y⟩ := by
  cases form
  case arrayExpression elements =>
    rw [refs, ofHoles_eq_mapIdx _ _ 0]
    simp only [Nat.zero_add]
    rfl
  -- the body of a function comes after a list, so that its number depends on the length
  case functionDeclaration id params body | functionExpression id params body =>
    have past (y : α) : params.set params.length y = params :=
      List.set_eq_of_length_le (Nat.le_refl _)
    cases id <;>
      simp [refs, children, ofOption, ofList_eq_mapIdx, setChild, mapIdx, mapIdx_ite,
        mapIdx_ite_add, List.mapIdx_eq_mapIdx_iff, past] <;>
      grind
  case switchCase test consequent =>
    cases test <;>
      simp [refs, children, ofOption, ofList_eq_mapIdx, setChild, mapIdx, mapIdx_ite,
        mapIdx_ite_add]
  case forStatement init test update body =>
    rcases init with _ | init <;> rcases test with _ | test <;> rcases update with _ | update <;> rfl
  case tryStatement block handler finalizer =>
    rcases handler with _ | handler <;> rcases finalizer with _ | finalizer <;> rfl
  case variableDeclarator id init => cases init <;> rfl
  case breakStatement label => cases label <;> rfl
  case continueStatement label => cases label <;> rfl
  case ifStatement test consequent alternate => cases alternate <;> rfl
  case returnStatement argument => cases argument <;> rfl
  case catchClause param body => cases param <;> rfl
  case yieldExpression argument delegate => cases argument <;> rfl
  all_goals
    simp [refs, children, ofList_eq_mapIdx, setChild, mapIdx, mapIdx_ite, mapIdx_ite_add]

namespace Node

theorem getElem?_refs (n : Node) (i : Nat) :
    n.refs[i]? = n.children[i]?.map fun c => ⟨c, fun x => n.withForm (n.form.setChild i x)⟩ := by
  rw [refs, List.getElem?_map, Form.refs_eq_mapIdx, List.getElem?_mapIdx, Option.map_map]
  rfl

/-- **A path leads an edit to the node that it leads a reader to**, and filling the reference
there puts a node in its place. -/
theorem refAt?_eq (n : Node) (p : Path) :
    n.refAt? p = (n.at? p).map fun m => ⟨m, n.setAt p⟩ := by
  induction p generalizing n with
  | nil =>
    rw [at?_nil]
    refine congrArg some (congrArg (Ref.mk n) (funext fun x => ?_))
    exact (setAt_nil n x).symm
  | cons i p ih =>
    rw [refAt?, getElem?_refs, at?_cons]
    cases hc : n.children[i]? with
    | none => rfl
    | some c =>
      have hset : n.setAt (i :: p) = fun x => n.withForm (n.form.setChild i (c.setAt p x)) :=
        funext fun x => by rw [setAt_cons, hc]
      simp only [Option.map_some, Option.bind_some, ih, Option.map_map, hset]
      rfl

end Node

end RepairCorpus
