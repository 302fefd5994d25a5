import RepairCorpus.Proofs.Abstraction.Numbering
import RepairCorpus.Proofs.Abstraction.PartialMasks

/-!
# Hiding in breadth-first order

The loop that hides words keeps a queue of places, and a counter from which an identifier gets its
number when it is met.  Its invariant `HideRun.Steady` has three parts.  The queue holds the roots of
a mask that is carried out midway.  It is in breadth-first order, and so is what it makes room for:
the node above any place in the queue comes before all places in the queue (`InOrder`).  And what the
counter has handed out are numbers for the identifiers that come before the whole queue.

For the numbers it does not matter whether a place is dropped from the queue or gives way to its parts.
`HideRun.Follows` says what both leave behind, and `HideRun.Steady.turn` that in either case exactly
one more place has been met: if an identifier stands there, the number it gets is the next one.

* `HideRun.Steady.decideAt`, `HideRun.Steady.run`: one turn and all turns keep the invariant.
* `Node.hideInPlace_eq`: **the loop hides as the recursion does**.
-/

namespace RepairCorpus

/-! ## Queues in breadth-first order -/

/-- Whether the places in a queue are in breadth-first order, with the nodes above them before them
all. -/
structure InOrder (queue : List Path) : Prop where
  sorted : queue.Pairwise Path.Before
  above : ∀ p ∈ queue, ∀ q ∈ queue, Path.Before p.dropLast q

namespace InOrder

open RepairCorpus.Node RepairCorpus.Path

variable {p : Path} {queue : List Path}

theorem before (h : InOrder (p :: queue)) : ∀ q ∈ queue, Before p q :=
  (List.pairwise_cons.mp h.sorted).1

theorem drop (h : InOrder (p :: queue)) : InOrder queue where
  sorted := h.sorted.of_cons
  above q hq r hr := h.above q (List.mem_cons_of_mem p hq) r (List.mem_cons_of_mem p hr)

/-- The parts of a node come one after the other. -/
theorem start (m : Node) (p : Path) : InOrder (m.partPaths p) where
  sorted := by
    rw [partPaths, List.pairwise_map]
    exact List.pairwise_lt_range.imp fun h => before_of_lt p h
  above := by
    intro q hq r hr
    obtain ⟨i, -, rfl⟩ := mem_partPaths.mp hq
    obtain ⟨j, -, rfl⟩ := mem_partPaths.mp hr
    rw [List.dropLast_concat]
    exact before_concat p j

/-- **The parts of the first place belong at the end of the queue.** -/
theorem descend (h : InOrder (p :: queue)) (m : Node) : InOrder (queue ++ m.partPaths p) where
  sorted := by
    refine List.pairwise_append.mpr ⟨h.drop.sorted, (start m p).sorted, ?_⟩
    intro q hq r hr
    obtain ⟨i, -, rfl⟩ := mem_partPaths.mp hr
    have hne : q ≠ [] := ne_nil_of_before (h.before q hq)
    have habove := h.above q (List.mem_cons_of_mem p hq) p List.mem_cons_self
    rw [← List.dropLast_append_getLast hne]
    exact habove.concat _ i
  above := by
    have hbelow : ∀ r ∈ queue ++ m.partPaths p, Before p r := by
      intro r hr
      rcases List.mem_append.mp hr with hr | hr
      · exact h.before r hr
      · obtain ⟨j, -, rfl⟩ := mem_partPaths.mp hr
        exact before_concat p j
    intro q hq r hr
    rcases List.mem_append.mp hq with hq | hq
    · exact (h.above q (List.mem_cons_of_mem p hq) p List.mem_cons_self).trans (hbelow r hr)
    · obtain ⟨i, -, rfl⟩ := mem_partPaths.mp hq
      rw [List.dropLast_concat]
      exact hbelow r hr

end InOrder

namespace HideRun

open RepairCorpus.Node RepairCorpus.Path

/-- **The invariant of the loop.** -/
structure Steady (n : Node) (v : Vocabulary) (unique : Bool) (counter : Nat) (s : HideRun) :
    Prop where
  midway : Midway n (n.hiddenName v unique counter) s.queue s.tree s.replaced
  order : InOrder s.queue
  /-- Every unknown identifier comes before the whole queue or lies at or below a place in it. -/
  met : ∀ q ∈ n.unknownIdentifiers v.contains,
    (∀ r ∈ s.queue, Before q r) ∨ ∃ r ∈ s.queue, r <+: q
  counter_eq : s.counter = if unique then
    counter + (n.unknownIdentifiers v.contains).countP fun q => ∀ r ∈ s.queue, Before q r
    else counter

/-- Whether a queue may follow on one whose first place has been met: it lies behind that place, drops
no other place, and no unknown identifier below that place gets lost. -/
structure Follows (n : Node) (v : Vocabulary) (p : Path) (queue next : List Path) : Prop where
  order : InOrder next
  behind : ∀ r ∈ next, Before p r
  kept : ∀ r ∈ queue, r ∈ next
  below : ∀ q ∈ n.unknownIdentifiers v.contains, p <+: q → q = p ∨ ∃ r ∈ next, r <+: q

section Turns

variable {n m : Node} {v : Vocabulary} {p : Path} {queue : List Path}

/-- What is hidden has nothing below it and is dropped. -/
theorem follows_drop (horder : InOrder (p :: queue)) (hm : n.at? p = some m) (hp : p ≠ [])
    (hhidden : m.form.disguise v.contains ≠ .keep) : Follows n v p queue queue where
  order := horder.drop
  behind := horder.before
  kept r hr := hr
  below q hq hpq := by
    obtain ⟨-, k, hk, -⟩ := (mem_unknownIdentifiers v.contains).mp hq
    exact Or.inl (eq_of_prefix_of_hidesAt (hidesAt_eq_true_iff.mpr ⟨hp, m, hm, hhidden⟩) hk hpq).symm

/-- What is kept gives way to its parts, at the end of the queue. -/
theorem follows_descend (horder : InOrder (p :: queue)) (hm : n.at? p = some m) :
    Follows n v p queue (queue ++ m.partPaths p) where
  order := horder.descend m
  behind r hr := by
    rcases List.mem_append.mp hr with hr | hr
    · exact horder.before r hr
    · obtain ⟨i, -, rfl⟩ := mem_partPaths.mp hr
      exact before_concat p i
  kept r hr := List.mem_append_left _ hr
  below q hq hpq := by
    obtain ⟨-, k, hk, -⟩ := (mem_unknownIdentifiers v.contains).mp hq
    by_cases hne : q = p
    · exact Or.inl hne
    · obtain ⟨r, hr, hrq⟩ := exists_partPath_above hm hk hpq hne
      exact Or.inr ⟨r, List.mem_append_right _ hr, hrq⟩

end Turns

namespace Steady

variable {n : Node} {v : Vocabulary} {unique : Bool} {counter : Nat} {s : HideRun}

theorem start (n : Node) (v : Vocabulary) (unique : Bool) (counter : Nat) :
    Steady n v unique counter ⟨n, n.partPaths [], 0, counter⟩ := by
  have hroots : ∀ q ∈ n.unknownIdentifiers v.contains, ∃ r ∈ n.partPaths [], r <+: q := by
    intro q hq
    obtain ⟨hne, m, hm, -⟩ := (mem_unknownIdentifiers v.contains).mp hq
    exact exists_partPath_above (at?_nil n) hm List.nil_prefix hne
  refine ⟨Midway.start rfl, InOrder.start n [], fun q hq => Or.inr (hroots q hq), ?_⟩
  have hnone : ((n.unknownIdentifiers v.contains).countP fun q => ∀ r ∈ n.partPaths [], Before q r)
      = 0 := by
    rw [List.countP_eq_zero]
    intro q hq
    obtain ⟨r, hr, hrq⟩ := hroots q hq
    rw [decide_eq_true_eq]
    intro hbefore
    exact not_before_of_above hrq (hbefore r hr)
  simp [hnone]

/-- The counter holds the number of identifiers before the place that is next. -/
theorem counter_of_cons {p : Path} {queue : List Path} (h : Steady n v unique counter s)
    (hs : s.queue = p :: queue) :
    s.counter = if unique then counter + n.rank v.contains p else counter := by
  have horder := hs ▸ h.order
  have hmet : ∀ q : Path, (∀ r ∈ p :: queue, Before q r) ↔ Before q p := by
    intro q
    constructor
    · intro hq
      exact hq p List.mem_cons_self
    · intro hq r hr
      rcases List.mem_cons.mp hr with rfl | hr
      · exact hq
      · exact hq.trans (horder.before r hr)
  rw [h.counter_eq, hs]
  simp only [hmet]
  rfl

/-- **One turn.**  The place that has been met joins the identifiers before the queue if one stands
there, and no other does. -/
theorem turn {p : Path} {queue next : List Path} {tree : Node} {replaced number : Nat}
    (h : Steady n v unique counter s) (hs : s.queue = p :: queue) (hnext : Follows n v p queue next)
    (hmidway : Midway n (n.hiddenName v unique counter) next tree replaced)
    (hnumber : number = if unique ∧ p ∈ n.unknownIdentifiers v.contains then s.counter + 1
      else s.counter) :
    Steady n v unique counter ⟨tree, next, replaced, number⟩ := by
  have hbefore : ∀ q : Path, Before q p ∨ q = p → ∀ r ∈ next, Before q r := by
    rintro q (hq | rfl) r hr
    · exact hq.trans (hnext.behind r hr)
    · exact hnext.behind r hr
  have hmet : ∀ q ∈ n.unknownIdentifiers v.contains,
      (Before q p ∨ q = p) ∨ ∃ r ∈ next, r <+: q := by
    intro q hq
    rcases h.met q hq with hall | ⟨r, hr, hrq⟩
    · rw [hs] at hall
      exact Or.inl (Or.inl (hall p List.mem_cons_self))
    · rw [hs] at hr
      rcases List.mem_cons.mp hr with rfl | hr
      · exact (hnext.below q hq hrq).imp_left Or.inr
      · exact Or.inr ⟨r, hnext.kept r hr, hrq⟩
  have hmet_iff : ∀ q ∈ n.unknownIdentifiers v.contains,
      (∀ r ∈ next, Before q r) ↔ Before q p ∨ q = p := by
    intro q hq
    refine ⟨fun hall => (hmet q hq).resolve_right ?_, hbefore q⟩
    rintro ⟨r, hr, hrq⟩
    exact not_before_of_above hrq (hall r hr)
  have hcount : ((n.unknownIdentifiers v.contains).countP fun q => ∀ r ∈ next, Before q r)
      = n.rank v.contains p + (n.unknownIdentifiers v.contains).count p := by
    rw [List.countP_congr (q := fun q => decide (Before q p ∨ q = p)) fun q hq => by
      simpa using hmet_iff q hq]
    refine countP_eq_add (fun q => by simp) (fun q hq => ?_) _
    simp only [decide_eq_true_eq, beq_eq_false_iff_ne] at hq ⊢
    rintro rfl
    exact not_before_self q hq
  refine ⟨hmidway, hnext.order, fun q hq => (hmet q hq).imp_left (hbefore q), ?_⟩
  rw [hnumber, h.counter_of_cons hs, hcount,
    (nodup_unknownIdentifiers v.contains n).count]
  cases unique <;> by_cases hp : p ∈ n.unknownIdentifiers v.contains <;>
    simp [hp, Nat.add_assoc]

/-- **Every decision keeps the invariant**, and there is one node less to come. -/
theorem decideAt {p : Path} {queue : List Path} (h : Steady n v unique counter s)
    (hs : s.queue = p :: queue) :
    Steady n v unique counter (HideRun.decideAt v.contains unique { s with queue := queue } p) ∧
      n.weight (HideRun.decideAt v.contains unique { s with queue := queue } p).queue
        < n.weight s.queue := by
  have horder := hs ▸ h.order
  have hmidway := hs ▸ h.midway
  have hp : p ≠ [] := ne_nil_of_before (horder.above p List.mem_cons_self p List.mem_cons_self)
  obtain ⟨⟨m, hm⟩, -⟩ := hmidway.stands p List.mem_cons_self
  have href : s.tree.refAt? p = some ⟨m, s.tree.setAt p⟩ := by
    rw [refAt?_eq, hmidway.at?_of_mem List.mem_cons_self hm]
    rfl
  have hname := hiddenName_eq v unique counter hp hm
  have hunknown : p ∈ n.unknownIdentifiers v.contains ↔
      m.form.disguise v.contains = .identifier := by
    rw [mem_unknownIdentifiers, and_iff_right hp, hm]
    simp
  have hleft : n.weight queue < n.weight s.queue := by
    have hsize := weight_partPaths hm
    rw [hs, weight_cons hm]
    omega
  have hdrop : m.form.disguise v.contains ≠ .keep → Follows n v p queue queue :=
    follows_drop horder hm hp
  rw [HideRun.decideAt, href]
  cases hcase : m.form.disguise v.contains with
  | keep =>
    rw [hcase] at hname hunknown
    simp only [hcase]
    refine ⟨?_, ?_⟩
    · refine h.turn hs (follows_descend horder hm) ?_ (by simp [hunknown])
      exact (hmidway.descend hm hname).perm List.perm_append_comm
    · have hsize := weight_partPaths hm
      rw [weight_append, hs, weight_cons hm]
      omega
  | identifier =>
    rw [hcase] at hname hunknown
    have hfollows := hdrop (by simp [hcase])
    simp only [hcase, putIdentifier]
    cases unique with
    | true =>
      refine ⟨h.turn hs hfollows ?_ (by simp [hunknown]), hleft⟩
      have hnumber : s.counter = counter + n.rank v.contains p := h.counter_of_cons hs
      rw [hnumber]
      exact hmidway.hide hm hname
    | false => exact ⟨h.turn hs hfollows (hmidway.hide hm hname) (by simp), hleft⟩
  | fixed name =>
    rw [hcase] at hname hunknown
    have hfollows := hdrop (by simp [hcase])
    simp only [hcase]
    exact ⟨h.turn hs hfollows (hmidway.hide hm hname) (by simp [hunknown]), hleft⟩

/-- **The loop keeps the invariant and comes to its end**, if it may take as many turns as there are
nodes to come. -/
theorem run {k : Nat} (h : Steady n v unique counter s) (hk : n.weight s.queue ≤ k) :
    Steady n v unique counter (HideRun.run v.contains unique k s) ∧
      (HideRun.run v.contains unique k s).queue = [] := by
  induction k generalizing s with
  | zero =>
    refine ⟨h, ?_⟩
    cases hs : s.queue with
    | nil => exact hs
    | cons p queue =>
      have := (h.decideAt hs).2
      omega
  | succ k ih =>
    rw [HideRun.run]
    split
    next hs => exact ⟨h, hs⟩
    next p queue hs =>
      obtain ⟨hsteady, hleft⟩ := h.decideAt hs
      exact ih hsteady (by omega)

end Steady

end HideRun

namespace Node

section Hiding

variable (n : Node) (v : Vocabulary) (unique : Bool) (counter : Nat)

/-- **The loop hides words as the recursion does**, and it leaves no node to come. -/
theorem hideRun_eq : (n.hideRun v unique counter).queue = [] ∧
    n.hideInPlace v unique counter = n.hide v unique counter := by
  have hleft : n.weight (n.partPaths []) ≤ n.size := by
    have := weight_partPaths (at?_nil n)
    omega
  obtain ⟨hsteady, hqueue⟩ := (HideRun.Steady.start n v unique counter).run hleft
  have hdone := hsteady.midway
  have hcounter := hsteady.counter_eq
  rw [hqueue] at hdone hcounter
  obtain ⟨htree, hcount⟩ := hdone.finish
  have hall : ((n.unknownIdentifiers v.contains).countP fun q => ∀ r ∈ ([] : List Path), Path.Before q r)
      = (n.unknownIdentifiers v.contains).length := by
    rw [List.countP_eq_length]
    simp
  rw [hall, ← counter_hide v unique counter n] at hcounter
  rw [← (hide_eq n v unique counter).1] at htree
  rw [← (hide_eq n v unique counter).2] at hcount
  refine ⟨hqueue, ?_⟩
  show Hidden.mk _ _ _ = _
  rw [hideRun, htree, hcount, hcounter]

theorem hideInPlace_eq : n.hideInPlace v unique counter = n.hide v unique counter :=
  (hideRun_eq n v unique counter).2

end Hiding

end Node

end RepairCorpus
