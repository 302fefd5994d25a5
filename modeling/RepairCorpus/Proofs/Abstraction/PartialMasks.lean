import Mathlib.Algebra.GroupWithZero.Nat
import RepairCorpus.Abstraction.InPlace
import RepairCorpus.Proofs.Abstraction.ClosedForms
import RepairCorpus.Proofs.Syntax.Refs

/-!
# Masks that are partly carried out

An abstraction that works in place leaves, at every moment, a tree in which some nodes have been
replaced and others not yet.  Which ones depends on the order in which places are visited, and a stack
and a queue visit them in different orders.  What both keep is this: there are some paths, the *roots*,
such that nothing at or below a root has been decided and everything else has.  The tree is then the
original one masked by the names that lie beyond the roots, which is `Midway`.

From there only two things can happen to a root.

* `Midway.hide`: the mask has a name for it.  A placeholder is put there, and the root is dropped.
* `Midway.descend`: the mask has no name for it.  The tree stays, and the parts of the node take the
  place of the root.

When no roots are left the mask has been carried out (`Midway.finish`), in whatever order.  And since a
root is met with the node that stood there in the beginning (`Midway.at?_of_mem`), an abstraction
that reads the changed tree decides as if it read the original one.
-/

namespace RepairCorpus

/-! ## Names beyond some roots -/

namespace Mask

/-- The names of a mask other than those at or below some paths. -/
def beyond (names : Mask) (roots : List Path) : Mask :=
  fun p => if ∃ r ∈ roots, r <+: p then none else names p

variable {names : Mask} {roots : List Path} {p : Path}

theorem beyond_of_below {r : Path} (hr : r ∈ roots) (hp : r <+: p) :
    names.beyond roots p = none := by
  unfold beyond
  rw [if_pos ⟨r, hr, hp⟩]

theorem beyond_of_elsewhere (h : ∀ r ∈ roots, ¬ r <+: p) : names.beyond roots p = names p := by
  unfold beyond
  rw [if_neg]
  rintro ⟨r, hr, hp⟩
  exact h r hr hp

theorem beyond_eq_none (h : names p = none) (roots : List Path) : names.beyond roots p = none := by
  unfold beyond
  split
  · rfl
  · exact h

@[simp] theorem beyond_nil (names : Mask) : names.beyond [] = names := by
  funext p
  simp [beyond]

theorem beyond_perm {roots' : List Path} (h : roots.Perm roots') :
    names.beyond roots = names.beyond roots' := by
  funext p
  simp [beyond, h.mem_iff]

end Mask

/-- Two paths that part ways. -/
def Path.Apart (p q : Path) : Prop := ¬ p <+: q ∧ ¬ q <+: p

theorem Path.Apart.symm {p q : Path} (h : Apart p q) : Apart q p := ⟨h.2, h.1⟩

namespace Node

/-! ## Comparing masks -/

/-- Masks that agree on the nodes of a tree do the same to it. -/
theorem masked_congr {n : Node} {a b : Mask} (h : ∀ p m, n.at? p = some m → a p = b p) :
    n.masked a = n.masked b ∧ n.maskedPaths a = n.maskedPaths b := by
  induction n using Node.induction generalizing a b with
  | step own underlying form ih =>
    have hnil : a [] = b [] := h [] _ (at?_nil _)
    have hparts : ∀ (i : Nat) (c : Node), form.children[i]? = some c →
        c.masked (a.below i) = c.masked (b.below i) ∧
          c.maskedPaths (a.below i) = c.maskedPaths (b.below i) := by
      intro i c hc
      refine ih c (List.mem_of_getElem? hc) ?_
      intro p m hm
      refine h (i :: p) m ?_
      rw [at?_cons]
      show form.children[i]?.bind _ = _
      rw [hc]
      exact hm
    cases hname : a [] with
    | some name =>
      rw [masked_of_some hname, masked_of_some (hnil ▸ hname), maskedPaths_of_some hname,
        maskedPaths_of_some (hnil ▸ hname)]
      exact ⟨rfl, rfl⟩
    | none =>
      rw [masked_of_none hname, masked_of_none (hnil ▸ hname), maskedPaths_of_none hname,
        maskedPaths_of_none (hnil ▸ hname)]
      constructor
      · exact congrArg _ (Form.mapIdx_congr fun i c hc => (hparts i c hc).1)
      · refine congrArg List.flatten (List.ext_getElem? fun i => ?_)
        rw [List.getElem?_mapIdx, List.getElem?_mapIdx]
        refine Option.map_congr fun c hc => ?_
        rw [(hparts i c hc).2]

/-- Two masks that agree but for one path, which only the second names: what the second replaces in
addition can be replaced afterwards. -/
theorem setAt_masked {n m : Node} {a b : Mask} {p : Path} {name : String}
    (hm : n.at? p = some m) (hname : b p = some name)
    (habove : ∀ q, q <+: p → q ≠ p → a q = none)
    (hagree : ∀ q, ¬ p <+: q → a q = b q) :
    (n.masked a).setAt p (m.asPlaceholder name) = n.masked b := by
  induction p generalizing n a b with
  | nil =>
    rw [at?_nil] at hm
    cases hm
    rw [setAt_nil, masked_of_some hname]
  | cons i p ih =>
    obtain ⟨ha, hbelow⟩ := Mask.unnamed_above_cons.mp habove
    have hb : b [] = none := by
      rw [← hagree [] fun h => List.cons_ne_nil i p (List.prefix_nil.mp h)]
      exact ha
    rw [masked_of_none ha, masked_of_none hb, setAt_cons_eq_mapIdx, form_withForm, withForm_withForm,
      Form.mapIdx_mapIdx]
    refine congrArg n.withForm (Form.mapIdx_congr fun k c hc => ?_)
    by_cases hk : k = i
    · subst hk
      rw [at?_cons, show n.children[k]? = some c from hc] at hm
      rw [if_pos rfl]
      exact ih hm hname hbelow fun q hq => hagree (k :: q) fun h => hq ((List.prefix_cons_inj k).mp h)
    · rw [if_neg hk]
      refine congrArg c.masked (funext fun q => ?_)
      exact hagree (k :: q) fun h => hk (List.cons_prefix_cons.mp h).1.symm

/-- In that case the second mask replaces one node more. -/
theorem length_maskedPaths_of_agree {n m : Node} {a b : Mask} {p : Path} {name : String}
    (hm : n.at? p = some m) (hname : b p = some name) (hbelow : ∀ q, p <+: q → a q = none)
    (habove : ∀ q, q <+: p → q ≠ p → a q = none)
    (hagree : ∀ q, ¬ p <+: q → a q = b q) :
    (n.maskedPaths b).length = (n.maskedPaths a).length + 1 := by
  have hunnamed : ∀ q, q <+: p → q ≠ p → b q = none := by
    intro q hq hne
    rw [← hagree q fun h => hne (hq.eq_of_length (Nat.le_antisymm hq.length_le h.length_le))]
    exact habove q hq hne
  have hmem (q : Path) : q ∈ n.maskedPaths b ↔ q ∈ p :: n.maskedPaths a := by
    rw [List.mem_cons, mem_maskedPaths, mem_maskedPaths]
    by_cases hq : p <+: q
    · constructor
      · rintro ⟨-, -, hq'⟩
        left
        by_contra hne
        have hp := hq' p hq fun h => hne h.symm
        rw [hname] at hp
        cases hp
      · rintro (rfl | ⟨-, ⟨other, hother⟩, -⟩)
        · exact ⟨⟨m, hm⟩, ⟨name, hname⟩, hunnamed⟩
        · rw [hbelow q hq] at hother
          cases hother
    · have hne : q ≠ p := fun h => hq (h ▸ List.prefix_refl q)
      rw [or_iff_right hne, hagree q hq]
      refine and_congr_right fun _ => and_congr_right fun _ => forall_congr' fun r => ?_
      refine forall_congr' fun hr => ?_
      rw [hagree r fun h => hq (h.trans hr)]
  have hp : p ∉ n.maskedPaths a := by
    intro hmem
    obtain ⟨-, ⟨other, hother⟩, -⟩ := mem_maskedPaths.mp hmem
    rw [hbelow p (List.prefix_refl p)] at hother
    cases hother
  have hperm : (n.maskedPaths b).Perm (p :: n.maskedPaths a) :=
    (List.perm_ext_iff_of_nodup (nodup_maskedPaths n b)
      (List.nodup_cons.mpr ⟨hp, nodup_maskedPaths n a⟩)).mpr hmem
  rw [hperm.length_eq, List.length_cons]

/-! ## The paths of parts -/

theorem length_refs (n : Node) : n.refs.length = n.children.length := by
  rw [refs, List.length_map, Form.refs_eq_mapIdx, List.length_mapIdx]
  rfl

theorem mem_partPaths {n : Node} {p q : Path} :
    q ∈ n.partPaths p ↔ ∃ i, i < n.children.length ∧ q = p ++ [i] := by
  simp [partPaths, length_refs, eq_comm]

/-- The parts of a node lie in different places. -/
theorem pairwise_partPaths (n : Node) (p : Path) : (n.partPaths p).Pairwise Path.Apart := by
  rw [partPaths, List.pairwise_map]
  refine List.pairwise_lt_range.imp fun {i j} hij => ?_
  simp only [Path.Apart, List.prefix_append_right_inj, List.cons_prefix_cons]
  omega

theorem at?_partPath {n m : Node} {p : Path} (hm : n.at? p = some m) (i : Nat) :
    n.at? (p ++ [i]) = m.children[i]? := by
  rw [at?_append_of_at? hm, at?_singleton]

/-- Below a node stands what stands at and below its parts. -/
theorem exists_partPath_above {n m c : Node} {p q : Path} (hm : n.at? p = some m)
    (hq : n.at? q = some c) (hpq : p <+: q) (hne : q ≠ p) : ∃ r ∈ m.partPaths p, r <+: q := by
  obtain ⟨s, rfl⟩ := hpq
  rw [at?_append_of_at? hm] at hq
  cases s with
  | nil => exact absurd (List.append_nil p) hne
  | cons i s =>
    rw [at?_cons] at hq
    obtain ⟨d, hd, -⟩ := Option.bind_eq_some_iff.mp hq
    obtain ⟨hi, -⟩ := List.getElem?_eq_some_iff.mp hd
    exact ⟨p ++ [i], mem_partPaths.mpr ⟨i, hi, rfl⟩, s, by simp⟩

end Node

/-! ## A mask that is partly carried out -/

/-- Some nodes of a tree have been replaced as a mask asks for.  What lies at and below the roots is
as it was, and all else is done. -/
structure Midway (n : Node) (names : Mask) (roots : List Path) (tree : Node) (replaced : Nat) :
    Prop where
  apart : roots.Pairwise Path.Apart
  /-- A root is a node, and no node above it is to be replaced. -/
  stands : ∀ r ∈ roots, (∃ m, n.at? r = some m) ∧ ∀ q, q <+: r → q ≠ r → names q = none
  tree_eq : tree = n.masked (names.beyond roots)
  replaced_eq : replaced = (n.maskedPaths (names.beyond roots)).length

namespace Midway

open Node

variable {n m tree : Node} {names : Mask} {roots : List Path} {replaced : Nat} {p : Path}

theorem perm {roots' : List Path} (h : Midway n names roots tree replaced)
    (hroots : roots.Perm roots') : Midway n names roots' tree replaced where
  apart := hroots.pairwise h.apart fun hpq => hpq.symm
  stands r hr := h.stands r (hroots.mem_iff.mpr hr)
  tree_eq := by rw [← Mask.beyond_perm hroots]; exact h.tree_eq
  replaced_eq := by rw [← Mask.beyond_perm hroots]; exact h.replaced_eq

/-- Before anything is decided, the parts of the root of the tree are the roots. -/
theorem start (hnil : names [] = none) : Midway n names (n.partPaths []) n 0 := by
  have hnone : ∀ p m, n.at? p = some m → names.beyond (n.partPaths []) p = none := by
    intro p m hm
    by_cases hp : p = []
    · rw [hp]
      exact Mask.beyond_eq_none hnil _
    · obtain ⟨r, hr, hrp⟩ := exists_partPath_above (at?_nil n) hm List.nil_prefix hp
      exact Mask.beyond_of_below hr hrp
  obtain ⟨htree, hpaths⟩ := masked_eq_self hnone
  refine ⟨pairwise_partPaths n [], ?_, htree.symm, by rw [hpaths]; rfl⟩
  intro r hr
  obtain ⟨i, hi, rfl⟩ := mem_partPaths.mp hr
  refine ⟨⟨n.children[i], ?_⟩, ?_⟩
  · rw [at?_partPath (at?_nil n), List.getElem?_eq_getElem hi]
  · intro q hq hne
    rcases List.prefix_concat_iff.mp hq with rfl | hq'
    · exact absurd rfl hne
    · rw [List.prefix_nil.mp hq', hnil]

/-- **Without roots the mask has been carried out.** -/
theorem finish (h : Midway n names [] tree replaced) :
    tree = n.masked names ∧ replaced = (n.maskedPaths names).length := by
  have htree := h.tree_eq
  have hcount := h.replaced_eq
  rw [Mask.beyond_nil] at htree hcount
  exact ⟨htree, hcount⟩

/-- A node below which all is undecided stands as it was. -/
theorem at?_eq (h : Midway n names roots tree replaced) (hm : n.at? p = some m)
    (habove : ∀ q, q <+: p → q ≠ p → names q = none)
    (hbelow : ∀ q c, m.at? q = some c → names.beyond roots (p ++ q) = none) :
    tree.at? p = some m := by
  have hself : names.beyond roots p = none := by
    have := hbelow [] m (at?_nil m)
    rwa [List.append_nil] at this
  have hunnamed : ∀ q, q <+: p → names.beyond roots q = none := by
    intro q hq
    by_cases hne : q = p
    · rw [hne, hself]
    · exact Mask.beyond_eq_none (habove q hq hne) roots
  rw [h.tree_eq, at?_masked_of_unnamed hm hunnamed]
  exact congrArg some (masked_eq_self hbelow).1

/-- **A root is met with the node that stood there in the beginning.** -/
theorem at?_of_mem (h : Midway n names roots tree replaced) (hp : p ∈ roots)
    (hm : n.at? p = some m) : tree.at? p = some m :=
  h.at?_eq hm (h.stands p hp).2 fun q _ _ => Mask.beyond_of_below hp (List.prefix_append p q)

theorem apart_of_mem (h : Midway n names (p :: roots) tree replaced) :
    ∀ r ∈ roots, Path.Apart p r :=
  (List.pairwise_cons.mp h.apart).1

/-- **A root with a name is replaced and dropped.** -/
theorem hide {name : String} (h : Midway n names (p :: roots) tree replaced)
    (hm : n.at? p = some m) (hname : names p = some name) :
    Midway n names roots (tree.setAt p (m.asPlaceholder name)) (replaced + 1) := by
  have hstands := h.stands p List.mem_cons_self
  have habove : ∀ q, q <+: p → q ≠ p → names.beyond (p :: roots) q = none := by
    intro q hq hne
    exact Mask.beyond_eq_none (hstands.2 q hq hne) _
  have hnamed : names.beyond roots p = some name := by
    rw [Mask.beyond_of_elsewhere fun r hr => (h.apart_of_mem r hr).2, hname]
  have hagree : ∀ q, ¬ p <+: q → names.beyond (p :: roots) q = names.beyond roots q := by
    intro q hq
    simp [Mask.beyond, hq]
  refine ⟨h.apart.of_cons, fun r hr => h.stands r (List.mem_cons_of_mem p hr), ?_, ?_⟩
  · rw [h.tree_eq]
    exact setAt_masked hm hnamed habove hagree
  · rw [h.replaced_eq]
    refine (length_maskedPaths_of_agree hm hnamed (fun q hq => ?_) habove hagree).symm
    exact Mask.beyond_of_below List.mem_cons_self hq

/-- **A root without a name gives way to its parts**, and nothing changes. -/
theorem descend (h : Midway n names (p :: roots) tree replaced) (hm : n.at? p = some m)
    (hname : names p = none) : Midway n names (m.partPaths p ++ roots) tree replaced := by
  have hstands := h.stands p List.mem_cons_self
  have hsame : ∀ q c, n.at? q = some c →
      names.beyond (p :: roots) q = names.beyond (m.partPaths p ++ roots) q := by
    intro q c hq
    by_cases hpq : p <+: q
    · rw [Mask.beyond_of_below List.mem_cons_self hpq]
      by_cases hne : q = p
      · rw [hne]
        exact (Mask.beyond_eq_none hname _).symm
      · obtain ⟨r, hr, hrq⟩ := exists_partPath_above hm hq hpq hne
        exact (Mask.beyond_of_below (List.mem_append_left _ hr) hrq).symm
    · have hparts : ∀ r ∈ m.partPaths p, ¬ r <+: q := by
        intro r hr hrq
        obtain ⟨i, -, rfl⟩ := mem_partPaths.mp hr
        exact hpq ((List.prefix_append p [i]).trans hrq)
      unfold Mask.beyond
      refine if_congr ?_ rfl rfl
      simp only [List.mem_cons, List.mem_append, or_and_right, exists_or, exists_eq_left, hpq,
        false_or]
      exact ⟨Or.inr, fun hr => hr.resolve_left fun ⟨r, hr, hrq⟩ => hparts r hr hrq⟩
  obtain ⟨htree, hpaths⟩ := masked_congr hsame
  refine ⟨?_, ?_, h.tree_eq.trans htree, h.replaced_eq.trans (congrArg List.length hpaths)⟩
  · refine List.pairwise_append.mpr ⟨pairwise_partPaths m p, h.apart.of_cons, ?_⟩
    intro q hq r hr
    obtain ⟨i, -, rfl⟩ := mem_partPaths.mp hq
    obtain ⟨hpr, hrp⟩ := h.apart_of_mem r hr
    refine ⟨fun hqr => hpr ((List.prefix_append p [i]).trans hqr), fun hrq => ?_⟩
    rcases List.prefix_concat_iff.mp hrq with rfl | hr'
    · exact hpr (List.prefix_append p [i])
    · exact hrp hr'
  · intro r hr
    rcases List.mem_append.mp hr with hr | hr
    · obtain ⟨i, hi, rfl⟩ := mem_partPaths.mp hr
      refine ⟨⟨m.children[i], ?_⟩, ?_⟩
      · rw [at?_partPath hm, List.getElem?_eq_getElem hi]
      · intro q hq hne
        rcases List.prefix_concat_iff.mp hq with rfl | hq'
        · exact absurd rfl hne
        · by_cases hqp : q = p
          · rw [hqp, hname]
          · exact hstands.2 q hq' hqp
    · exact h.stands r (List.mem_cons_of_mem p hr)

end Midway

/-! ## How many nodes are left -/

namespace Node

/-- The number of nodes at and below some paths. -/
def weight (n : Node) (ps : List Path) : Nat := (ps.map fun p => ((n.at? p).map size).getD 0).sum

theorem weight_cons {n m : Node} {p : Path} (hm : n.at? p = some m) (ps : List Path) :
    n.weight (p :: ps) = m.size + n.weight ps := by
  rw [weight, List.map_cons, List.sum_cons, hm]
  rfl

theorem weight_append (n : Node) (ps qs : List Path) :
    n.weight (ps ++ qs) = n.weight ps + n.weight qs := by
  simp [weight]

/-- Below a node there is one node less. -/
theorem weight_partPaths {n m : Node} {p : Path} (hm : n.at? p = some m) :
    n.weight (m.partPaths p) + 1 = m.size := by
  have hparts : (m.partPaths p).map (fun q => ((n.at? q).map size).getD 0) = m.children.map size := by
    refine List.ext_getElem? fun i => ?_
    rw [partPaths, length_refs, List.map_map, List.getElem?_map, List.getElem?_map]
    rcases Nat.lt_or_ge i m.children.length with hi | hi
    · simp [at?_partPath hm, hi]
    · simp [hi]
  obtain ⟨own, underlying, form⟩ := m
  rw [weight, hparts, size_mk, Nat.add_comm]
  rfl

end Node

end RepairCorpus
