import Mathlib.Data.List.Basic
import RepairCorpus.Mutation.Search
import RepairCorpus.Proofs.Mutation.Discovery
import RepairCorpus.Proofs.Syntax.Refs

/-!
# The order of candidates

A search keeps one path for all of a tree.  Whatever it finds below a node is found with the path to
that node in front, and when it comes back the path is what it was (`Node.visit_eq`).  So a search
from the root finds the candidates that are read off the places of inserted try statements.

Paths are lists of numbers, and the order of lists is the preorder of places: a path stands before
those that go on from its end, and of two that part ways the one that takes the part with the lesser
number stands first.

* `Node.discover_eq`: the search finds the candidates of a tree.
* `Node.pairwise_insertedTries`: the paths to inserted try statements ascend.
* `Node.discover_inserted_tries`: **a search finds exactly the inserted try statements below the
  root, in preorder**.
-/

namespace RepairCorpus

namespace Candidate

/-- The same candidate in a tree whose root is at the end of a path. -/
def under (p : Path) (c : Candidate) : Candidate := ⟨p ++ c.owner, c.index⟩

/-- A path that goes on from a part and further names a candidate below that part. -/
theorem ofPath?_cons_of_ne_nil (i : Nat) {p : Path} (hp : p ≠ []) :
    ofPath? (i :: p) = (ofPath? p).map (under [i]) := by
  obtain ⟨q, j, rfl⟩ := List.eq_nil_or_concat p |>.resolve_left hp
  have hbelow : ofPath? (q ++ [j]) = some ⟨q, j⟩ := ofPath?_path ⟨q, j⟩
  have hall : ofPath? (i :: q ++ [j]) = some ⟨i :: q, j⟩ := ofPath?_path ⟨i :: q, j⟩
  rw [List.concat_eq_append, hbelow]
  exact hall

end Candidate

namespace Node

/-! ## Candidates part by part -/

/-- The candidates at and below the part with a number. -/
def candidatesFrom (i : Nat) (c : Node) : List Candidate :=
  (if c.isInsertedTry then [⟨[], i⟩] else []) ++ c.candidates.map (.under [i])

theorem candidates_eq_filterMap_triesBelow (n : Node) :
    n.candidates = n.triesBelow.filterMap Candidate.ofPath? := by
  rw [candidates, insertedTries_eq, List.filterMap_append]
  split <;> rfl

theorem filterMap_ofPath?_map_cons (c : Node) (i : Nat) :
    (c.insertedTries.map (i :: ·)).filterMap Candidate.ofPath? = candidatesFrom i c := by
  have hbelow : (c.triesBelow.map (i :: ·)).filterMap Candidate.ofPath?
      = c.candidates.map (.under [i]) := by
    rw [List.filterMap_map, candidates_eq_filterMap_triesBelow, List.map_filterMap]
    refine List.filterMap_congr fun p hp => ?_
    exact Candidate.ofPath?_cons_of_ne_nil i fun h => c.nil_notMem_triesBelow (h ▸ hp)
  rw [insertedTries_eq, List.map_append, List.filterMap_append, hbelow, candidatesFrom]
  split <;> rfl

/-- The candidates of a tree are those at and below its parts. -/
theorem candidates_eq_flatMap (n : Node) :
    n.candidates = n.children.zipIdx.flatMap fun c => candidatesFrom c.2 c.1 := by
  rw [candidates_eq_filterMap_triesBelow, triesBelow, List.filterMap_flatten,
    List.mapIdx_eq_zipIdx_map, List.map_map, List.flatMap_def]
  refine congrArg List.flatten (List.map_congr_left fun c _ => ?_)
  exact filterMap_ofPath?_map_cons c.1 c.2

/-! ## The search -/

/-- What a search makes of some parts, if it makes of each what it should. -/
theorem foldl_visit {cs : List (Node × Nat)}
    (h : ∀ c ∈ cs, ∀ s : Search,
      c.1.visit s = ⟨s.path, s.found ++ c.1.candidates.map (.under s.path)⟩) (s : Search) :
    cs.foldl (fun s c =>
        (c.1.visit ((if c.1.isInsertedTry then s.note c.2 else s).enter c.2)).leave) s
      = ⟨s.path, s.found ++ (cs.flatMap fun c => candidatesFrom c.2 c.1).map (.under s.path)⟩ := by
  induction cs generalizing s with
  | nil => rw [List.foldl_nil, List.flatMap_nil, List.map_nil, List.append_nil]
  | cons c cs ih =>
    have hstep : (c.1.visit ((if c.1.isInsertedTry then s.note c.2 else s).enter c.2)).leave
        = ⟨s.path, s.found ++ (candidatesFrom c.2 c.1).map (.under s.path)⟩ := by
      rw [h c List.mem_cons_self, Search.leave, Search.enter, candidatesFrom]
      split <;> simp [Search.note, Candidate.under, Function.comp_def]
    rw [List.foldl_cons, hstep, ih fun d hd => h d (List.mem_cons_of_mem c hd), List.flatMap_cons,
      List.map_append, List.append_assoc]

/-- **A search comes back to where it was** and has found the candidates below, each with the path
to that place in front. -/
theorem visit_eq (n : Node) (s : Search) :
    n.visit s = ⟨s.path, s.found ++ n.candidates.map (.under s.path)⟩ := by
  induction n using Node.induction generalizing s with
  | step own underlying form ih =>
    rw [visit_mk, candidates_eq_flatMap]
    refine foldl_visit (fun c hc s => ih c.1 ?_ s) s
    exact List.fst_mem_of_mem_zipIdx hc

/-- **The search finds the candidates of a tree.** -/
theorem discover_eq (n : Node) : n.discover = n.candidates := by
  rw [discover, visit_eq]
  exact (List.nil_append _).trans (List.map_id _)

/-! ## Preorder -/

/-- The paths to the candidates are the listed ones other than the root's. -/
theorem map_path_candidates (n : Node) : n.candidates.map Candidate.path = n.triesBelow := by
  have hpath : ∀ p ∈ n.triesBelow, (Candidate.ofPath? p).map Candidate.path = some p := by
    intro p hp
    obtain ⟨q, i, rfl⟩ := List.eq_nil_or_concat p |>.resolve_left
      fun h => n.nil_notMem_triesBelow (h ▸ hp)
    rw [List.concat_eq_append]
    exact congrArg (Option.map Candidate.path) (Candidate.ofPath?_path ⟨q, i⟩)
  rw [candidates_eq_filterMap_triesBelow, List.map_filterMap, List.filterMap_congr hpath]
  exact List.filterMap_some

theorem pairwise_triesBelow {n : Node} (h : ∀ c ∈ n.children, c.insertedTries.Pairwise (· < ·)) :
    n.triesBelow.Pairwise (· < ·) := by
  rw [triesBelow, List.pairwise_flatten]
  constructor
  · intro ps hps
    obtain ⟨i, hi, rfl⟩ := List.mem_mapIdx.mp hps
    have hlt : ∀ p q : Path, p < q → i :: p < i :: q :=
      fun p q hpq => List.cons_lt_cons_iff.mpr (.inr ⟨rfl, hpq⟩)
    exact List.pairwise_map.mpr ((h _ (List.getElem_mem hi)).imp (hlt _ _))
  · rw [List.pairwise_iff_getElem]
    intro i j hi hj hij p hp q hq
    rw [List.getElem_mapIdx] at hp hq
    obtain ⟨p, -, rfl⟩ := List.mem_map.mp hp
    obtain ⟨q, -, rfl⟩ := List.mem_map.mp hq
    exact List.cons_lt_cons_iff.mpr (.inl hij)

/-- **The paths to inserted try statements ascend.** -/
theorem pairwise_insertedTries (n : Node) : n.insertedTries.Pairwise (· < ·) := by
  induction n using Node.induction with
  | step own underlying form ih =>
    rw [insertedTries_eq, List.pairwise_append]
    refine ⟨?_, pairwise_triesBelow ih, ?_⟩
    · split
      · exact List.pairwise_singleton _ _
      · exact List.Pairwise.nil
    · intro p hp q hq
      split at hp
      · rw [List.mem_singleton.mp hp]
        cases q with
        | nil => exact absurd hq (nil_notMem_triesBelow _)
        | cons i q => exact List.nil_lt_cons i q
      · exact absurd hp List.not_mem_nil

theorem mem_triesBelow {n : Node} {p : Path} :
    p ∈ n.triesBelow ↔
      p ≠ [] ∧ ∃ m, n.at? p = some m ∧ m.kind = .tryStatement ∧ m.own = .inserted := by
  simp only [← isInsertedTry_iff]
  cases p with
  | nil => exact iff_of_false n.nil_notMem_triesBelow fun h => h.1 rfl
  | cons i p => rw [← cons_mem_insertedTries, mem_insertedTries,
      and_iff_right (List.cons_ne_nil i p)]

/-- **A search finds exactly the inserted try statements below the root**, in preorder and each
once, and the owner of each is where its path leads, be it to look at the owner or to change it. -/
theorem discover_inserted_tries (n : Node) :
    (n.discover.map Candidate.path).Pairwise (· < ·) ∧
    (n.discover.map Candidate.path).Nodup ∧
    (∀ p, p ∈ n.discover.map Candidate.path ↔
      p ≠ [] ∧ ∃ m, n.at? p = some m ∧ m.kind = .tryStatement ∧ m.own = .inserted) ∧
    ∀ c ∈ n.discover, ∃ owner ref, n.at? c.owner = some owner ∧
      n.refAt? c.owner = some ref ∧ ref.held = owner ∧ ref.fill owner = n ∧
      ∀ x, (ref.fill x).at? c.owner = some x := by
  rw [discover_eq, map_path_candidates]
  have hbelow := pairwise_triesBelow fun c (_ : c ∈ n.children) => c.pairwise_insertedTries
  have hne : ∀ p q : Path, p < q → p ≠ q := fun p q hlt heq => List.lt_irrefl q (heq ▸ hlt)
  refine ⟨hbelow, hbelow.imp (hne _ _), fun p => mem_triesBelow, ?_⟩
  intro c hc
  obtain ⟨owner, -, howner, -, -⟩ := mem_candidates.mp hc
  refine ⟨owner, ⟨owner, n.setAt c.owner⟩, howner, ?_, rfl, setAt_at? howner, fun x => ?_⟩
  · rw [refAt?_eq, howner]
    rfl
  · exact at?_setAt_self howner x

end Node

end RepairCorpus
