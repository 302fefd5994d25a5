import Mathlib.Data.List.Nodup
import RepairCorpus.Proofs.Syntax.Nodes
import RepairCorpus.Syntax.Path

/-!
# Places along a path

A path that is cut in two leads first to the node at the end of its first half and from there to
the rest: looking up and replacing at `p ++ q` is doing so at `q`, below the node at `p`.

Two paths that part ways lead to places that have nothing to do with each other: `Node.at?_setAt`
says that what is put at one is not seen at the other, and `Node.setAt_comm` that it does not matter
which one is written first.

Lists of paths are put together part by part: the paths below each part, with the number of the part in
front.  Such a list is read by the first entries of its paths (`Path.cons_mem_flatten_iff`).
-/

namespace RepairCorpus

namespace Path

section Parts

variable {α : Type} {xs : List α} {f : Nat → α → List Path}

theorem nil_notMem_flatten : [] ∉ (xs.mapIdx fun i x => (f i x).map (i :: ·)).flatten := by
  intro h
  obtain ⟨ps, hps, hp⟩ := List.mem_flatten.mp h
  obtain ⟨i, hi, rfl⟩ := List.mem_mapIdx.mp hps
  obtain ⟨q, -, hq⟩ := List.mem_map.mp hp
  exact List.cons_ne_nil i q hq

/-- A path that goes through a part is listed when the rest of it is listed for that part. -/
theorem cons_mem_flatten_iff {i : Nat} {p : Path} :
    i :: p ∈ (xs.mapIdx fun i x => (f i x).map (i :: ·)).flatten
      ↔ ∃ x, xs[i]? = some x ∧ p ∈ f i x := by
  rw [List.mem_flatten]
  constructor
  · rintro ⟨ps, hps, hp⟩
    obtain ⟨j, hj, rfl⟩ := List.mem_mapIdx.mp hps
    obtain ⟨q, hq, heq⟩ := List.mem_map.mp hp
    obtain ⟨rfl, rfl⟩ := List.cons.inj heq
    exact ⟨_, List.getElem?_eq_getElem hj, hq⟩
  · rintro ⟨x, hx, hp⟩
    obtain ⟨hi, rfl⟩ := List.getElem?_eq_some_iff.mp hx
    exact ⟨_, List.mem_mapIdx.mpr ⟨i, hi, rfl⟩, List.mem_map.mpr ⟨p, hp, rfl⟩⟩

/-- No path is listed twice when none is listed twice for one part. -/
theorem nodup_flatten (h : ∀ i x, xs[i]? = some x → (f i x).Nodup) :
    (xs.mapIdx fun i x => (f i x).map (i :: ·)).flatten.Nodup := by
  rw [List.nodup_flatten]
  constructor
  · intro ps hps
    obtain ⟨i, hi, rfl⟩ := List.mem_mapIdx.mp hps
    exact (h i _ (List.getElem?_eq_getElem hi)).map fun p q hpq => (List.cons.inj hpq).2
  · -- paths through different parts differ in their first entry
    refine List.pairwise_iff_getElem.mpr fun i j hi hj hij => ?_
    rw [List.getElem_mapIdx, List.getElem_mapIdx]
    intro p hp hp'
    obtain ⟨q, -, rfl⟩ := List.mem_map.mp hp
    obtain ⟨q', -, heq⟩ := List.mem_map.mp hp'
    exact Nat.ne_of_lt hij (List.cons.inj heq).1.symm

end Parts

end Path

namespace Form

variable {α : Type}

theorem children_setChild_of_ne {i j : Nat} (hij : i ≠ j) (x : α) (form : Form α) :
    (form.setChild i x).children[j]? = form.children[j]? := by
  rw [children_setChild, List.getElem?_set_ne hij]

theorem setChild_comm {i j : Nat} (hij : i ≠ j) (x y : α) (form : Form α) :
    (form.setChild i x).setChild j y = (form.setChild j y).setChild i x := by
  simp only [setChild, mapIdx_mapIdx]
  refine mapIdx_congr fun k z _ => ?_
  by_cases hj : k = j
  · rw [if_pos hj, if_pos hj, if_neg fun hi => hij (hi.symm.trans hj)]
  · rw [if_neg hj, if_neg hj]

end Form

namespace Node

theorem setAt_cons_of_children {n c : Node} {i : Nat} (hc : n.children[i]? = some c) (p : Path)
    (x : Node) : n.setAt (i :: p) x = n.withForm (n.form.setChild i (c.setAt p x)) := by
  rw [setAt_cons, hc]

theorem at?_append_of_at? {n m : Node} {p : Path} (h : n.at? p = some m) (q : Path) :
    n.at? (p ++ q) = m.at? q := by
  rw [at?_append, h]
  rfl

theorem at?_singleton (n : Node) (i : Nat) : n.at? [i] = n.children[i]? := by
  rw [at?_cons]
  cases n.children[i]? with
  | none => rfl
  | some c => exact at?_nil c

theorem setAt_append {n m : Node} {p : Path} (h : n.at? p = some m) (q : Path) (x : Node) :
    n.setAt (p ++ q) x = n.setAt p (m.setAt q x) := by
  induction p generalizing n with
  | nil =>
    obtain rfl : n = m := Option.some.inj ((at?_nil n).symm.trans h)
    rw [setAt_nil]
    rfl
  | cons i p ih =>
    rw [at?_cons] at h
    obtain ⟨c, hc, hcm⟩ := Option.bind_eq_some_iff.mp h
    rw [List.cons_append, setAt_cons_of_children hc, setAt_cons_of_children hc, ih hcm]

/-- What is found in a tree is one of its nodes. -/
theorem mem_nodes_of_at? {n m : Node} {p : Path} (h : n.at? p = some m) : m ∈ n.nodes := by
  induction p generalizing n with
  | nil =>
    obtain rfl : n = m := Option.some.inj ((at?_nil n).symm.trans h)
    rw [nodes_eq_cons]
    exact List.mem_cons_self
  | cons i p ih =>
    rw [at?_cons] at h
    obtain ⟨c, hc, hcm⟩ := Option.bind_eq_some_iff.mp h
    rw [nodes_eq_cons]
    have hchild : c ∈ n.children := List.mem_of_getElem? hc
    exact List.mem_cons_of_mem n (List.mem_flatMap.mpr ⟨c, hchild, ih hcm⟩)

theorem setAt_singleton {n c : Node} {i : Nat} (hc : n.children[i]? = some c) (x : Node) :
    n.setAt [i] x = n.withForm (n.form.setChild i x) := by
  rw [setAt_cons_of_children hc, setAt_nil]

/-! ## Paths that part ways -/

/-- Putting something below a part changes that part and no other. -/
theorem setAt_cons_eq_mapIdx (n : Node) (i : Nat) (p : Path) (x : Node) :
    n.setAt (i :: p) x
      = n.withForm (n.form.mapIdx fun k c => if k = i then c.setAt p x else c) := by
  cases hi : n.children[i]? with
  | none =>
    have hsame : n.form.mapIdx (fun k c => if k = i then c.setAt p x else c)
        = n.form.mapIdx fun _ c => c := by
      refine Form.mapIdx_congr fun k c hk => if_neg fun hki => ?_
      rw [hki] at hk
      exact absurd (hi.symm.trans hk) (Option.some_ne_none c).symm
    rw [setAt_cons, hi, hsame, Form.mapIdx_eq_self fun _ _ => rfl, withForm_form]
  | some c =>
    rw [setAt_cons_of_children hi, Form.setChild]
    refine congrArg n.withForm (Form.mapIdx_congr fun k d hk => ?_)
    split
    next hki =>
      rw [hki] at hk
      rw [Option.some.inj (hi.symm.trans hk)]
    next => rfl

/-- **What is put at a place is not seen at one that is neither above nor below it.** -/
theorem at?_setAt {n : Node} {p q : Path} (hpq : ¬ p <+: q) (hqp : ¬ q <+: p) (x : Node) :
    (n.setAt p x).at? q = n.at? q := by
  induction p generalizing n q with
  | nil => exact absurd List.nil_prefix hpq
  | cons i p ih =>
    cases q with
    | nil => exact absurd List.nil_prefix hqp
    | cons j q =>
      have hchild : (n.setAt (i :: p) x).children[j]?
          = n.children[j]?.map fun c => if j = i then c.setAt p x else c := by
        rw [setAt_cons_eq_mapIdx]
        show (Form.mapIdx _ n.form).children[j]? = n.form.children[j]?.map _
        rw [Form.children_mapIdx, List.getElem?_mapIdx]
      rw [at?_cons, at?_cons, hchild, Option.bind_map]
      refine Option.bind_congr fun c _ => ?_
      by_cases hij : j = i
      · subst hij
        rw [List.cons_prefix_cons, and_iff_right rfl] at hpq hqp
        simp only [Function.comp, if_true]
        exact ih hpq hqp
      · simp only [Function.comp, if_neg hij]

/-- **Of two places neither of which is above the other it does not matter which is written
first.** -/
theorem setAt_comm {n : Node} {p q : Path} (hpq : ¬ p <+: q) (hqp : ¬ q <+: p) (x y : Node) :
    (n.setAt p x).setAt q y = (n.setAt q y).setAt p x := by
  induction p generalizing n q with
  | nil => exact absurd List.nil_prefix hpq
  | cons i p ih =>
    cases q with
    | nil => exact absurd List.nil_prefix hqp
    | cons j q =>
      simp only [setAt_cons_eq_mapIdx, form_withForm, withForm_withForm, Form.mapIdx_mapIdx]
      refine congrArg n.withForm (Form.mapIdx_congr fun k c _ => ?_)
      by_cases hi : k = i
      · by_cases hj : k = j
        · rw [← hi, ← hj, List.cons_prefix_cons, and_iff_right rfl] at hpq hqp
          simp only [if_pos hi, if_pos hj]
          exact ih hpq hqp
        · simp only [if_pos hi, if_neg hj]
      · simp only [if_neg hi]

end Node

end RepairCorpus
