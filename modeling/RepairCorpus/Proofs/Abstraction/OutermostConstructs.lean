import Mathlib.Data.List.Induction
import RepairCorpus.Proofs.Abstraction.PartialMasks

/-!
# Collapsing the outermost constructs

Which constructs collapsing replaces is a matter of paths: the kind has to be mapped, enough blocks
and object literals have to lie strictly between the root and the construct, and nothing above it may
have been replaced.  The work is done by a loop that knows nothing of paths from the root.  It takes
the node noted last from a list, and with it a depth, and decides about the parts of that node.

The two are brought together by an invariant of the loop, `CollapseRun.Steady`: the parts of the nodes
that wait are the roots of a mask that is carried out midway, and each waiting node comes with the
depth of its parts.  Every decision keeps it (`Steady.decideAt`), and so does the whole loop
(`Steady.run`), which comes to its end because opening a node leaves one node less to be opened.

* `Node.depthOf_eq_countP`: the depth as a count of the nodes in between.
* `Node.collapseInPlace_eq`: the loop collapses a tree as the recursion does.
* `Node.collapse_replaces_outermost`: **exactly the outermost eligible nodes are replaced**.
-/

namespace RepairCorpus

namespace Node

/-! ## Depths -/

theorem levelsOn_concat {n m : Node} {p : Path} (hm : n.at? p = some m) (i : Nat) :
    n.levelsOn (p ++ [i]) = n.levelsOn p + m.kind.depthStep := by
  induction p generalizing n with
  | nil =>
    rw [at?_nil] at hm
    cases hm
    rw [List.nil_append, levelsOn, levelsOn]
    cases m.children[i]? with
    | none => simp
    | some c => simp [levelsOn]
  | cons j p ih =>
    rw [at?_cons] at hm
    obtain ⟨c, hc, hcm⟩ := Option.bind_eq_some_iff.mp hm
    rw [List.cons_append, levelsOn, levelsOn, hc]
    simp only [ih hcm, Nat.add_assoc]

theorem depthOf_singleton (n : Node) (i : Nat) : n.depthOf [i] = 0 := by
  rw [depthOf]
  cases n.children[i]? with
  | none => rfl
  | some c => exact levelsOn.eq_1 c

/-- The parts of a node below the root lie as deep as the node, or one level deeper. -/
theorem depthOf_concat {n m : Node} {p : Path} (hp : p ≠ []) (hm : n.at? p = some m) (i : Nat) :
    n.depthOf (p ++ [i]) = n.depthOf p + m.kind.depthStep := by
  cases p with
  | nil => exact absurd rfl hp
  | cons j p =>
    rw [at?_cons] at hm
    obtain ⟨c, hc, hcm⟩ := Option.bind_eq_some_iff.mp hm
    rw [List.cons_append, depthOf, depthOf, hc]
    exact levelsOn_concat hcm i

/-- The nodes strictly between the root and the end of a path, from the root downwards. -/
def between (n : Node) (p : Path) : List Node :=
  (List.range' 1 (p.length - 1)).filterMap fun k => n.at? (p.take k)

theorem between_concat {n m : Node} {p : Path} (hp : p ≠ []) (hm : n.at? p = some m) (i : Nat) :
    n.between (p ++ [i]) = n.between p ++ [m] := by
  have hlen : (p ++ [i]).length - 1 = p.length - 1 + 1 := by
    have := List.length_pos_iff.mpr hp
    simp
    omega
  have hlast : 1 + (p.length - 1) = p.length := by
    have := List.length_pos_iff.mpr hp
    omega
  have hinit : ∀ k ∈ List.range' 1 (p.length - 1), n.at? ((p ++ [i]).take k) = n.at? (p.take k) := by
    intro k hk
    rw [List.mem_range'_1] at hk
    rw [List.take_append_of_le_length (by omega)]
  rw [between, hlen, List.range'_1_concat, List.filterMap_append, List.filterMap_congr hinit, hlast]
  simp [between, hm]

/-- **The depth of a node is the number of blocks and object literals between the root and it.** -/
theorem depthOf_eq_countP {n m : Node} {p : Path} (hm : n.at? p = some m) :
    n.depthOf p = (n.between p).countP fun k => k.kind.increasesDepth := by
  induction p using List.reverseRecOn generalizing m with
  | nil => rfl
  | append_singleton p i ih =>
    obtain ⟨c, hc, -⟩ := Option.bind_eq_some_iff.mp ((at?_append n p [i]).symm.trans hm)
    by_cases hp : p = []
    · subst hp
      exact depthOf_singleton n i
    · rw [depthOf_concat hp hc, between_concat hp hc, ih hc, List.countP_append]
      simp [List.countP_cons, Kind.depthStep]

theorem increasesDepth_iff (k : Kind) :
    k.increasesDepth = true ↔ k = .blockStatement ∨ k = .objectExpression := by
  cases k <;> simp [Kind.increasesDepth]

/-! ## The loop -/

theorem refAt?_of_at? {n m : Node} {p : Path} (hm : n.at? p = some m) :
    n.refAt? p = some ⟨m, n.setAt p⟩ := by
  rw [refAt?_eq, hm]
  rfl

theorem collapsedName_of_at? {n m : Node} {p : Path} (placeholders : PlaceholderMap)
    (minDepth : Nat) (hp : p ≠ []) (hm : n.at? p = some m) :
    n.collapsedName placeholders minDepth p
      = if minDepth ≤ n.depthOf p then placeholders m.kind else none := by
  rw [collapsedName, if_neg hp, hm]
  rfl

/-- The paths of the parts of the node at the end of a path. -/
def partsAt (n : Node) (p : Path) : List Path :=
  match n.at? p with
  | some m => m.partPaths p
  | none => []

theorem partsAt_of_at? {n m : Node} {p : Path} (hm : n.at? p = some m) :
    n.partsAt p = m.partPaths p := by
  rw [partsAt, hm]

end Node

/-- Whether a node that waits to be opened is one that collapsing keeps, with the depth of its
parts. -/
structure Opening.Fits (n : Node) (names : Mask) (o : Opening) : Prop where
  stands : ∃ m, n.at? o.path = some m
  kept : ∀ q, q <+: o.path → names q = none
  depth : ∀ i, n.depthOf (o.path ++ [i]) = o.depth

namespace CollapseRun

open Node

/-- **The invariant of the loop.**  The parts of the nodes that wait, and some further parts that are
just being decided about, are all that is undecided. -/
structure Steady (n : Node) (placeholders : PlaceholderMap) (minDepth : Nat) (parts : List Path)
    (s : CollapseRun) : Prop where
  midway : Midway n (n.collapsedName placeholders minDepth)
    (parts ++ s.waiting.flatMap fun o => n.partsAt o.path) s.tree s.replaced
  fits : ∀ o ∈ s.waiting, o.Fits n (n.collapsedName placeholders minDepth)

/-- The number of nodes that may still be opened. -/
def left (n : Node) (s : CollapseRun) : Nat := n.weight (s.waiting.map Opening.path)

variable {n : Node} {placeholders : PlaceholderMap} {minDepth : Nat} {s : CollapseRun}

theorem steady_start (n : Node) :
    Steady n placeholders minDepth [] ⟨n, [⟨[], 0⟩], 0⟩ := by
  have hnil : n.collapsedName placeholders minDepth [] = none := if_pos rfl
  refine ⟨?_, ?_⟩
  · rw [List.flatMap_singleton, partsAt_of_at? (at?_nil n)]
    exact Midway.start hnil
  · intro o ho
    rw [List.mem_singleton.mp ho]
    refine ⟨⟨n, at?_nil n⟩, fun q hq => ?_, fun i => depthOf_singleton n i⟩
    rw [List.prefix_nil.mp hq, hnil]

/-- A part without a name is noted, with the depth of its own parts. -/
theorem Steady.note {m : Node} {p : Path} {parts : List Path}
    (h : Steady n placeholders minDepth (p :: parts) s) (hp : p ≠ []) (hm : n.at? p = some m)
    (hname : n.collapsedName placeholders minDepth p = none) :
    Steady n placeholders minDepth parts (s.note p (n.depthOf p + m.kind.depthStep)) := by
  refine ⟨?_, ?_⟩
  · rw [CollapseRun.note, List.flatMap_cons, partsAt_of_at? hm]
    exact (h.midway.descend hm hname).perm (List.perm_append_comm_assoc _ _ _)
  · intro o ho
    rcases List.mem_cons.mp ho with rfl | ho
    · refine ⟨⟨m, hm⟩, fun q hq => ?_, fun i => depthOf_concat hp hm i⟩
      by_cases hne : q = p
      · rw [hne, hname]
      · exact (h.midway.stands p List.mem_cons_self).2 q hq hne
    · exact h.fits o ho

theorem decideAt_of_at? {m : Node} {p : Path} (hm : s.tree.at? p = some m) (depth : Nat) :
    s.decideAt placeholders minDepth depth p =
      match (if minDepth ≤ depth then placeholders m.kind else none) with
      | some name => s.put ⟨m, s.tree.setAt p⟩ name
      | none => s.note p (depth + m.kind.depthStep) := by
  rw [decideAt, refAt?_of_at? hm]
  cases hk : placeholders m.kind with
  | none => simp [hk]
  | some name => by_cases hdepth : minDepth ≤ depth <;> simp [hk, hdepth]

/-- **Every decision keeps the invariant**, and there are no more nodes to open than the part has. -/
theorem Steady.decideAt {p : Path} {parts : List Path}
    (h : Steady n placeholders minDepth (p :: parts) s) (hp : p ≠ []) :
    Steady n placeholders minDepth parts (s.decideAt placeholders minDepth (n.depthOf p) p) ∧
      (s.decideAt placeholders minDepth (n.depthOf p) p).left n ≤ s.left n + n.weight [p] := by
  obtain ⟨⟨m, hm⟩, -⟩ := h.midway.stands p List.mem_cons_self
  have htree := h.midway.at?_of_mem List.mem_cons_self hm
  have hname := collapsedName_of_at? placeholders minDepth hp hm
  have hnote : (s.note p (n.depthOf p + m.kind.depthStep)).left n ≤ s.left n + n.weight [p] := by
    show n.weight (p :: s.waiting.map Opening.path) ≤ _
    rw [weight_cons hm, weight_cons hm, left]
    omega
  rw [decideAt_of_at? htree, ← hname]
  cases hcase : n.collapsedName placeholders minDepth p with
  | none => exact ⟨h.note hp hm hcase, hnote⟩
  | some name => exact ⟨⟨h.midway.hide hm hcase, h.fits⟩, Nat.le_add_right _ _⟩

/-- The parts of a node are decided about one after the other. -/
theorem Steady.foldl_decideAt {parts : List Path} {depth : Nat}
    (h : Steady n placeholders minDepth parts s)
    (hparts : ∀ p ∈ parts, p ≠ [] ∧ n.depthOf p = depth) :
    Steady n placeholders minDepth [] (parts.foldl (CollapseRun.decideAt placeholders minDepth depth) s) ∧
      (parts.foldl (CollapseRun.decideAt placeholders minDepth depth) s).left n
        ≤ s.left n + n.weight parts := by
  induction parts generalizing s with
  | nil => exact ⟨h, Nat.le_add_right _ _⟩
  | cons p parts ih =>
    obtain ⟨hp, rfl⟩ := hparts p List.mem_cons_self
    obtain ⟨hsteady, hleft⟩ := h.decideAt hp
    obtain ⟨hdone, hrest⟩ := ih hsteady fun q hq => hparts q (List.mem_cons_of_mem p hq)
    refine ⟨hdone, ?_⟩
    have hweight := weight_append n [p] parts
    rw [List.singleton_append] at hweight
    rw [List.foldl_cons]
    omega

/-- Opening a node keeps the invariant, and leaves one node less to be opened. -/
theorem Steady.enter {o : Opening} {waiting : List Opening} (hw : s.waiting = o :: waiting)
    (h : Steady n placeholders minDepth [] s) :
    Steady n placeholders minDepth [] (enter placeholders minDepth { s with waiting := waiting } o) ∧
      (CollapseRun.enter placeholders minDepth { s with waiting := waiting } o).left n < s.left n := by
  have ho : o ∈ s.waiting := hw ▸ List.mem_cons_self
  obtain ⟨⟨m, hm⟩, hkept, hdepth⟩ := h.fits o ho
  have hroots := h.midway
  rw [hw, List.nil_append, List.flatMap_cons, partsAt_of_at? hm] at hroots
  have htree : s.tree.at? o.path = some m := by
    refine hroots.at?_eq hm (fun q hq _ => hkept q hq) fun q c hc => ?_
    by_cases hq : o.path ++ q = o.path
    · rw [hq]
      exact Mask.beyond_eq_none (hkept _ (List.prefix_refl _)) _
    · have hc' : n.at? (o.path ++ q) = some c := by rw [at?_append_of_at? hm, hc]
      obtain ⟨r, hr, hrq⟩ := exists_partPath_above hm hc' (List.prefix_append _ q) hq
      exact Mask.beyond_of_below (List.mem_append_left _ hr) hrq
  have hsteady : Steady n placeholders minDepth (m.partPaths o.path) { s with waiting := waiting } :=
    ⟨hroots, fun o' ho' => h.fits o' (hw ▸ List.mem_cons_of_mem o ho')⟩
  have hparts : ∀ p ∈ m.partPaths o.path, p ≠ [] ∧ n.depthOf p = o.depth := by
    intro p hp
    obtain ⟨i, -, rfl⟩ := mem_partPaths.mp hp
    exact ⟨by simp, hdepth i⟩
  obtain ⟨hdone, hleft⟩ := hsteady.foldl_decideAt hparts
  rw [CollapseRun.enter, refAt?_of_at? htree]
  refine ⟨hdone, Nat.lt_of_le_of_lt hleft ?_⟩
  have hsize := weight_partPaths hm
  rw [left, left, hw, List.map_cons, weight_cons hm]
  show n.weight (waiting.map Opening.path) + _ < _
  omega

/-- **The loop keeps the invariant and comes to its end**, if it may open as many nodes as are
left. -/
theorem Steady.run {k : Nat} (h : Steady n placeholders minDepth [] s) (hk : s.left n ≤ k) :
    Steady n placeholders minDepth [] (run placeholders minDepth k s) ∧
      (run placeholders minDepth k s).waiting = [] := by
  induction k generalizing s with
  | zero =>
    refine ⟨h, ?_⟩
    cases hw : s.waiting with
    | nil => exact hw
    | cons o waiting =>
      have := (h.enter hw).2
      omega
  | succ k ih =>
    rw [CollapseRun.run]
    split
    next hw => exact ⟨h, hw⟩
    next o waiting hw =>
      obtain ⟨hsteady, hleft⟩ := h.enter hw
      exact ih hsteady (by omega)

end CollapseRun

namespace Node

variable (placeholders : PlaceholderMap) (minDepth : Nat)

/-- **The loop collapses a tree as the recursion does**, and it leaves no node waiting. -/
theorem collapseRun_eq (n : Node) : (n.collapseRun placeholders minDepth).waiting = [] ∧
    n.collapseInPlace placeholders minDepth = n.collapse placeholders minDepth := by
  have hleft : CollapseRun.left n ⟨n, [⟨[], 0⟩], 0⟩ ≤ n.size := by
    show n.weight [[]] ≤ n.size
    rw [weight_cons (at?_nil n)]
    exact Nat.le_refl _
  have hstart : CollapseRun.Steady n placeholders minDepth [] ⟨n, [⟨[], 0⟩], 0⟩ :=
    CollapseRun.steady_start n
  obtain ⟨hsteady, hwaiting⟩ := hstart.run hleft
  have hdone := hsteady.midway
  rw [hwaiting] at hdone
  obtain ⟨htree, hcount⟩ := hdone.finish
  refine ⟨hwaiting, ?_⟩
  rw [collapse_eq, ← htree, ← hcount]
  rfl

theorem collapseInPlace_eq (n : Node) :
    n.collapseInPlace placeholders minDepth = n.collapse placeholders minDepth :=
  (collapseRun_eq placeholders minDepth n).2

/-! ## The outermost of named nodes -/

theorem exists_at?_above {n m : Node} {p q : Path} (hm : n.at? p = some m) (hq : q <+: p) :
    ∃ c, n.at? q = some c := by
  obtain ⟨r, rfl⟩ := hq
  rw [at?_append] at hm
  obtain ⟨c, hc, -⟩ := Option.bind_eq_some_iff.mp hm
  exact ⟨c, hc⟩

/-- Every named node on the way to a place is replaced or lies below one that is. -/
theorem exists_maskedPath_above {n m : Node} {names : Mask} {p q : Path} (hm : n.at? p = some m)
    (hq : q <+: p) (hname : names q ≠ none) : ∃ r ∈ n.maskedPaths names, r <+: q := by
  by_cases houter : ∀ r, r <+: q → r ≠ q → names r = none
  · have hnamed := Option.ne_none_iff_exists'.mp hname
    exact ⟨q, mem_maskedPaths.mpr ⟨exists_at?_above hm hq, hnamed, houter⟩, List.prefix_refl q⟩
  · push Not at houter
    obtain ⟨r, hr, hne, hrname⟩ := houter
    have hshorter : r.length < q.length := by
      refine Nat.lt_of_le_of_ne hr.length_le fun hlen => ?_
      exact hne (hr.eq_of_length hlen)
    obtain ⟨t, ht, htr⟩ := exists_maskedPath_above hm (hr.trans hq) hrname
    exact ⟨t, ht, htr.trans hr⟩
termination_by q.length

/-- Whether a named node is outermost can be seen from the outermost ones. -/
theorem unnamed_above_iff {n m : Node} {names : Mask} {p : Path} (hm : n.at? p = some m) :
    (∀ q, q <+: p → q ≠ p → names q = none) ↔
      ∀ q, q <+: p → q ≠ p → q ∉ n.maskedPaths names := by
  constructor
  · intro h q hq hne hmem
    obtain ⟨-, ⟨name, hname⟩, -⟩ := mem_maskedPaths.mp hmem
    rw [h q hq hne] at hname
    cases hname
  · intro h q hq hne
    by_contra hname
    obtain ⟨r, hr, hrq⟩ := exists_maskedPath_above hm hq hname
    refine h r (hrq.trans hq) (fun hrp => ?_) hr
    -- a path that is above a proper prefix is a proper prefix itself
    exact hne (hq.eq_of_length (Nat.le_antisymm hq.length_le (hrp ▸ hrq.length_le)))

/-! ## Which nodes are replaced -/

theorem countP_depth_eq (n : Node) (p : Path) :
    ((n.between p).countP fun k => k.kind = .blockStatement ∨ k.kind = .objectExpression)
      = (n.between p).countP fun k => k.kind.increasesDepth := by
  refine List.countP_congr fun k _ => ?_
  rw [decide_eq_true_iff, increasesDepth_iff]

/-- The root is never replaced. -/
theorem nil_notMem_maskedPaths_collapsedName (n : Node) (placeholders : PlaceholderMap)
    (minDepth : Nat) : [] ∉ n.maskedPaths (n.collapsedName placeholders minDepth) := by
  intro hmem
  obtain ⟨-, ⟨name, hname⟩, -⟩ := mem_maskedPaths.mp hmem
  exact ((collapsedName_eq_some_iff placeholders minDepth).mp hname).1 rfl

/-- **Where something is replaced**: at the mapped nodes that lie deep enough and that have no
replaced node between the root and them. -/
theorem mem_maskedPaths_collapsedName (n : Node) (placeholders : PlaceholderMap) (minDepth : Nat)
    (p : Path) :
    p ∈ n.maskedPaths (n.collapsedName placeholders minDepth) ↔ p ≠ [] ∧ ∃ m, n.at? p = some m ∧
      (placeholders m.kind).isSome ∧
      minDepth ≤ ((n.between p).countP fun k =>
        k.kind = .blockStatement ∨ k.kind = .objectExpression) ∧
      ∀ q, q ≠ [] → q <+: p → q ≠ p →
        q ∉ n.maskedPaths (n.collapsedName placeholders minDepth) := by
  constructor
  · intro hmem
    obtain ⟨⟨m, hm⟩, ⟨name, hname⟩, habove⟩ := mem_maskedPaths.mp hmem
    obtain ⟨hp, k, hk, hdepth, hmapped⟩ :=
      (collapsedName_eq_some_iff placeholders minDepth).mp hname
    refine ⟨hp, k, hk, Option.isSome_of_eq_some hmapped, ?_, ?_⟩
    · rw [countP_depth_eq, ← depthOf_eq_countP hk]
      exact hdepth
    · intro q _ hq hne
      exact (unnamed_above_iff hm).mp habove q hq hne
  · rintro ⟨hp, m, hm, hmapped, hdepth, habove⟩
    obtain ⟨name, hname⟩ := Option.isSome_iff_exists.mp hmapped
    rw [countP_depth_eq, ← depthOf_eq_countP hm] at hdepth
    refine mem_maskedPaths.mpr ⟨⟨m, hm⟩, ⟨name, ?_⟩, (unnamed_above_iff hm).mpr ?_⟩
    · exact (collapsedName_eq_some_iff placeholders minDepth).mpr ⟨hp, m, hm, hdepth, hname⟩
    · intro q hq hne hmem
      by_cases hnil : q = []
      · exact nil_notMem_maskedPaths_collapsedName n placeholders minDepth (hnil ▸ hmem)
      · exact habove q hnil hq hne hmem

/-- **Collapsing replaces exactly the outermost eligible nodes.**  A node below the root is replaced
exactly when its kind is mapped, at least `minDepth` blocks and object literals lie strictly between
the root and it, and no node strictly between the two is replaced.  A replaced node gives way to a
placeholder with the name its kind is mapped to and with both of its tags.  A node that is neither
replaced nor below one that is stays the same construct with the same tags, with as many parts in the
same order and the same holes.  As many nodes are replaced as are counted. -/
theorem collapse_replaces_outermost (n : Node) (placeholders : PlaceholderMap) (minDepth : Nat) :
    let done := n.collapseInPlace placeholders minDepth
    ∃ replaced : List Path, replaced.Nodup ∧ done.replaced = replaced.length ∧
      (∀ p, p ∈ replaced ↔ p ≠ [] ∧ ∃ m, n.at? p = some m ∧ (placeholders m.kind).isSome ∧
        minDepth ≤ ((n.between p).countP fun k =>
          k.kind = .blockStatement ∨ k.kind = .objectExpression) ∧
        ∀ q, q ≠ [] → q <+: p → q ≠ p → q ∉ replaced) ∧
      (∀ p ∈ replaced, ∃ m name, n.at? p = some m ∧ placeholders m.kind = some name ∧
        done.tree.at? p = some ⟨m.own, m.underlying, .placeholder name⟩) ∧
      ∀ p m, n.at? p = some m → (∀ q ∈ replaced, ¬ q <+: p) → Kept n done.tree p := by
  intro done
  have hdone : done = ⟨n.masked (n.collapsedName placeholders minDepth),
      (n.maskedPaths (n.collapsedName placeholders minDepth)).length⟩ := by
    rw [← collapse_eq]
    exact collapseInPlace_eq placeholders minDepth n
  rw [hdone]
  refine ⟨n.maskedPaths (n.collapsedName placeholders minDepth), nodup_maskedPaths n _, rfl,
    mem_maskedPaths_collapsedName n placeholders minDepth, ?_, ?_⟩
  · intro p hmem
    obtain ⟨-, ⟨name, hname⟩, -⟩ := mem_maskedPaths.mp hmem
    obtain ⟨-, m, hm, -, hmapped⟩ := (collapsedName_eq_some_iff placeholders minDepth).mp hname
    exact ⟨m, name, hm, hmapped, at?_masked hmem hm hname⟩
  · intro p m hm habove
    refine kept_masked hm fun q hq => ?_
    by_contra hname
    obtain ⟨r, hr, hrq⟩ := exists_maskedPath_above hm hq hname
    exact habove r hr (hrq.trans hq)

end Node

end RepairCorpus
