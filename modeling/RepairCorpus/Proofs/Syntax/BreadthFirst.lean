import Mathlib.Algebra.GroupWithZero.Nat
import Mathlib.Data.List.Infix
import Mathlib.Data.List.Nodup
import RepairCorpus.Proofs.Syntax.Places

/-!
# Breadth first

Going through a tree breadth first, one comes to a place before all that lie further from the root, and
of places at one distance to the leftmost first.  `Path.Before` is that order on paths.  Among paths of
one length the order of lists is the order from left to right.

* `Path.Before.concat`: of two places, the parts of the first come before the parts of the second.
  This is what a queue relies on.
* `Path.countP_before_getElem`: in a list that is in breadth-first order, a path stands behind as many
  paths as come before it.
* `Node.paths`: all places of a tree.  `Node.countP_paths` counts places part by part.
-/

namespace RepairCorpus

namespace Path

/-- Whether the end of a path comes before the end of another one, breadth first. -/
def Before (p q : Path) : Prop := p.length < q.length ∨ p.length = q.length ∧ p < q

instance : DecidableRel Before := fun p q =>
  inferInstanceAs (Decidable (p.length < q.length ∨ p.length = q.length ∧ p < q))

theorem not_before_self (p : Path) : ¬ Before p p := by
  rintro (h | ⟨-, h⟩)
  · exact Nat.lt_irrefl _ h
  · exact List.lt_irrefl p h

theorem Before.trans {p q r : Path} (hpq : Before p q) (hqr : Before q r) : Before p r := by
  rcases hpq with hpq | ⟨hpq, hlt⟩
  · rcases hqr with hqr | ⟨hqr, -⟩
    · exact Or.inl (by omega)
    · exact Or.inl (by omega)
  · rcases hqr with hqr | ⟨hqr, hlt'⟩
    · exact Or.inl (by omega)
    · exact Or.inr ⟨by omega, List.lt_trans hlt hlt'⟩

theorem Before.asymm {p q : Path} (hpq : Before p q) : ¬ Before q p := by
  intro hqp
  exact not_before_self p (hpq.trans hqp)

/-- Of two different places one comes before the other. -/
theorem eq_of_not_before {p q : Path} (hpq : ¬ Before p q) (hqp : ¬ Before q p) : p = q := by
  simp only [Before, not_or, not_and] at hpq hqp
  have hlen : p.length = q.length := by omega
  exact List.le_antisymm (hqp.2 hlen.symm) (hpq.2 hlen)

/-- A node comes before what lies below it. -/
theorem before_of_above {p q : Path} (h : p <+: q) (hne : p ≠ q) : Before p q := by
  left
  exact Nat.lt_of_le_of_ne h.length_le fun hlen => hne (h.eq_of_length hlen)

theorem before_concat (p : Path) (i : Nat) : Before p (p ++ [i]) := by
  left
  simp

theorem not_before_of_above {p q : Path} (h : p <+: q) : ¬ Before q p := by
  by_cases hne : p = q
  · rw [hne]
    exact not_before_self q
  · exact (before_of_above h hne).asymm

/-- Nothing comes before the root. -/
theorem ne_nil_of_before {p q : Path} (h : Before p q) : q ≠ [] := by
  rintro rfl
  exact not_before_of_above List.nil_prefix h

theorem lt_concat {p q : Path} (hlen : p.length = q.length) (h : p < q) (i j : Nat) :
    p ++ [i] < q ++ [j] := by
  induction p generalizing q with
  | nil =>
    rw [List.length_nil, eq_comm, List.length_eq_zero_iff] at hlen
    exact absurd (hlen ▸ h) (List.not_lt_nil [])
  | cons a p ih =>
    cases q with
    | nil => exact absurd h (List.not_lt_nil _)
    | cons b q =>
      rcases List.cons_lt_cons_iff.mp h with hab | ⟨rfl, hpq⟩
      · exact List.cons_lt_cons_iff.mpr (Or.inl hab)
      · exact List.cons_lt_cons_iff.mpr (Or.inr ⟨rfl, ih (Nat.succ.inj hlen) hpq⟩)

/-- **The parts of what comes before come before the parts of what comes after.** -/
theorem Before.concat {p q : Path} (h : Before p q) (i j : Nat) :
    Before (p ++ [i]) (q ++ [j]) := by
  rcases h with h | ⟨hlen, hlt⟩
  · left
    simp
    exact h
  · right
    exact ⟨by simp [hlen], lt_concat hlen hlt i j⟩

/-- The parts of one node come from left to right. -/
theorem before_of_lt (p : Path) {i j : Nat} (h : i < j) : Before (p ++ [i]) (p ++ [j]) := by
  right
  refine ⟨by simp, ?_⟩
  induction p with
  | nil => exact List.cons_lt_cons_iff.mpr (Or.inl h)
  | cons a p ih => exact List.cons_lt_cons_iff.mpr (Or.inr ⟨rfl, ih⟩)

/-- **In breadth-first order, a path stands behind as many paths as come before it.** -/
theorem countP_before_getElem {ps : List Path} (h : ps.Pairwise Before) (i : Nat)
    (hi : i < ps.length) : ps.countP (fun q => Before q ps[i]) = i := by
  induction ps generalizing i with
  | nil => exact absurd hi (Nat.not_lt_zero i)
  | cons p ps ih =>
    obtain ⟨hp, hps⟩ := List.pairwise_cons.mp h
    cases i with
    | zero =>
      rw [List.countP_eq_zero]
      intro q hq
      rw [List.getElem_cons_zero, decide_eq_true_eq]
      rcases List.mem_cons.mp hq with rfl | hq
      · exact not_before_self q
      · exact (hp q hq).asymm
    | succ i =>
      have hi' : i < ps.length := Nat.lt_of_succ_lt_succ hi
      have hbefore : Before p ps[i] := hp _ (List.getElem_mem hi')
      rw [List.getElem_cons_succ, List.countP_cons_of_pos (by simpa using hbefore), ih hps i hi']

end Path

/-! ## The places of a tree -/

namespace Node

/-- The paths of all nodes of a tree, each before those of the nodes below it. -/
def paths : Node → List Path :=
  fold fun _ _ form => [] :: (form.children.mapIdx fun i p => p.2.map (i :: ·)).flatten

theorem paths_eq (n : Node) :
    n.paths = [] :: (n.children.mapIdx fun i c => c.paths.map (i :: ·)).flatten := by
  obtain ⟨own, underlying, form⟩ := n
  rw [paths, fold_mk, ← paths, Form.children_map]
  refine congrArg ([] :: List.flatten ·) (List.ext_getElem? fun i => ?_)
  simp [children, Function.comp_def]

theorem mem_paths {n : Node} {p : Path} : p ∈ n.paths ↔ ∃ m, n.at? p = some m := by
  induction p generalizing n with
  | nil =>
    rw [paths_eq]
    exact iff_of_true List.mem_cons_self ⟨n, at?_nil n⟩
  | cons i p ih =>
    rw [paths_eq, List.mem_cons, or_iff_right (List.cons_ne_nil i p), Path.cons_mem_flatten_iff,
      at?_cons]
    constructor
    · rintro ⟨c, hc, hp⟩
      rw [hc]
      exact ih.mp hp
    · rintro ⟨m, hm⟩
      obtain ⟨c, hc, hcm⟩ := Option.bind_eq_some_iff.mp hm
      exact ⟨c, hc, ih.mpr ⟨m, hcm⟩⟩

/-- No path is listed twice. -/
theorem nodup_paths (n : Node) : n.paths.Nodup := by
  induction n using Node.induction with
  | step own underlying form ih =>
    rw [paths_eq, List.nodup_cons]
    exact ⟨Path.nil_notMem_flatten, Path.nodup_flatten fun i c hc => ih c (List.mem_of_getElem? hc)⟩

/-- The places of a tree are its root and the places below its parts. -/
theorem countP_paths (n : Node) (f : Path → Bool) :
    n.paths.countP f = (if f [] then 1 else 0)
      + (n.children.mapIdx fun i c => c.paths.countP fun p => f (i :: p)).sum := by
  rw [paths_eq, List.countP_cons, Nat.add_comm, List.countP_flatten]
  refine congrArg (_ + List.sum ·) (List.ext_getElem? fun i => ?_)
  simp [List.countP_map, Function.comp_def]

end Node

end RepairCorpus
