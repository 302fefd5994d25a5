import RepairCorpus.Mutation.Candidate
import RepairCorpus.Proofs.Syntax.Places

/-!
# Where candidates are

`Node.insertedTries` lists paths by going through a tree.  Seen from outside, the list is a set of
places: `Node.mem_insertedTries` says that a path is listed exactly when an inserted try statement
stands at its end, and `Node.mem_candidates` says the same of candidates, as an owner with a part.
-/

namespace RepairCorpus

namespace Candidate

/-- A candidate is read off a path exactly when the path is its own. -/
theorem ofPath?_eq_some_iff {p : Path} {c : Candidate} : ofPath? p = some c ↔ p = c.path := by
  constructor
  · intro h
    obtain ⟨i, hi, hc⟩ := Option.map_eq_some_iff.mp h
    obtain ⟨q, rfl⟩ := List.getLast?_eq_some_iff.mp hi
    rw [← hc, path, List.dropLast_concat]
  · intro h
    rw [h, ofPath?_path]

end Candidate

namespace Node

theorem isInsertedTry_iff (n : Node) :
    n.isInsertedTry = true ↔ n.kind = .tryStatement ∧ n.own = .inserted := by
  simp only [isInsertedTry, Bool.and_eq_true, decide_eq_true_eq]

/-! ## At the root and below -/

/-- The paths to inserted try statements below the root. -/
def triesBelow (n : Node) : List Path :=
  (n.children.mapIdx fun i c => c.insertedTries.map (i :: ·)).flatten

/-- The root is listed first, if it is listed. -/
theorem insertedTries_eq (n : Node) :
    n.insertedTries = (if n.isInsertedTry then [[]] else []) ++ n.triesBelow := by
  obtain ⟨own, underlying, form⟩ := n
  rw [insertedTries_mk]
  simp only [isInsertedTry_iff]
  rfl

theorem nil_notMem_triesBelow (n : Node) : [] ∉ n.triesBelow :=
  Path.nil_notMem_flatten

theorem cons_mem_triesBelow {n : Node} {i : Nat} {p : Path} :
    i :: p ∈ n.triesBelow ↔ ∃ c, n.children[i]? = some c ∧ p ∈ c.insertedTries :=
  Path.cons_mem_flatten_iff

theorem cons_mem_insertedTries {n : Node} {i : Nat} {p : Path} :
    i :: p ∈ n.insertedTries ↔ i :: p ∈ n.triesBelow := by
  have hroot : i :: p ∉ (if n.isInsertedTry then [[]] else [] : List Path) := by
    split
    · intro h
      exact List.cons_ne_nil _ _ (List.mem_singleton.mp h)
    · exact List.not_mem_nil
  rw [insertedTries_eq, List.mem_append, or_iff_right hroot]

/-! ## Places -/

/-- **The listed paths are the places of the inserted try statements.** -/
theorem mem_insertedTries {n : Node} {p : Path} :
    p ∈ n.insertedTries ↔ ∃ m, n.at? p = some m ∧ m.isInsertedTry = true := by
  induction p generalizing n with
  | nil =>
    rw [insertedTries_eq, List.mem_append, or_iff_left n.nil_notMem_triesBelow, at?_nil]
    simp only [Option.some.injEq, exists_eq_left']
    split
    next h => exact iff_of_true List.mem_cons_self h
    next h => exact iff_of_false List.not_mem_nil h
  | cons i p ih =>
    rw [cons_mem_insertedTries, cons_mem_triesBelow, at?_cons]
    constructor
    · rintro ⟨c, hc, hp⟩
      obtain ⟨m, hm, hins⟩ := ih.mp hp
      exact ⟨m, Option.bind_eq_some_iff.mpr ⟨c, hc, hm⟩, hins⟩
    · rintro ⟨m, hm, hins⟩
      obtain ⟨c, hc, hcm⟩ := Option.bind_eq_some_iff.mp hm
      exact ⟨c, hc, ih.mpr ⟨m, hcm, hins⟩⟩

/-- **The candidates are the inserted try statements below the root**, each named by its owner and
its number there. -/
theorem mem_candidates {n : Node} {c : Candidate} :
    c ∈ n.candidates ↔ ∃ owner t, n.at? c.owner = some owner ∧
      owner.children[c.index]? = some t ∧ t.isInsertedTry = true := by
  have hlisted : c ∈ n.candidates ↔ c.path ∈ n.insertedTries := by
    rw [candidates, List.mem_filterMap]
    constructor
    · rintro ⟨p, hp, hc⟩
      rwa [← Candidate.ofPath?_eq_some_iff.mp hc]
    · intro h
      exact ⟨c.path, h, Candidate.ofPath?_path c⟩
  rw [hlisted, mem_insertedTries, Candidate.path]
  simp only [at?_append, at?_cons, at?_nil, Option.bind_eq_some_iff, Option.some.injEq,
    exists_eq_right]
  constructor
  · rintro ⟨t, ⟨owner, howner, ht⟩, hins⟩
    exact ⟨owner, t, howner, ht, hins⟩
  · rintro ⟨owner, t, howner, ht, hins⟩
    exact ⟨t, ⟨owner, howner, ht⟩, hins⟩

end Node

end RepairCorpus
