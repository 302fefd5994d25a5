/-!
# Buckets

Projects are spread over a fixed number of buckets, in turn and in the order in which they are
first seen.  All records of a project go to one bucket, so that no project is in both the training
and the test data of a fold.

The assignment is the list of projects in the order of first sight; a project's bucket is its rank
in that list, modulo the number of buckets.

* `bucket?_assign_self`: a project is found where it was assigned to;
* `bucket?_assign_of_eq_some`: no assignment moves a project that has been assigned.
-/

namespace RepairCorpus

/-- An assignment of projects to buckets. -/
structure Buckets where
  /-- The number of buckets. -/
  count : Nat
  /-- The projects seen so far, in the order of first sight. -/
  projects : List String
  count_pos : 0 < count

namespace Buckets

/-- No project assigned yet; there is at least one bucket. -/
def new (count : Nat) : Buckets := ⟨max count 1, [], by omega⟩

/-- The bucket of a project, if it has been seen. -/
def bucket? (b : Buckets) (project : String) : Option Nat :=
  (b.projects.idxOf? project).map (· % b.count)

/-- The bucket of a project, with the assignment after the project has been seen. -/
def assign (b : Buckets) (project : String) : Nat × Buckets :=
  match b.bucket? project with
  | some i => (i, b)
  | none => (b.projects.length % b.count, { b with projects := b.projects ++ [project] })

theorem assign_of_eq_some {b : Buckets} {project : String} {i : Nat}
    (h : b.bucket? project = some i) : b.assign project = (i, b) := by
  rw [assign, h]

theorem assign_of_eq_none {b : Buckets} {project : String} (h : b.bucket? project = none) :
    b.assign project =
      (b.projects.length % b.count, { b with projects := b.projects ++ [project] }) := by
  rw [assign, h]

/-- A project is found in the bucket it was assigned to. -/
@[simp] theorem bucket?_assign_self (b : Buckets) (project : String) :
    (b.assign project).2.bucket? project = some (b.assign project).1 := by
  cases h : b.bucket? project with
  | some i => rw [assign_of_eq_some h, h]
  | none =>
    have hn : b.projects.findIdx? (· == project) = none := by
      simpa [bucket?, List.idxOf?] using h
    rw [assign_of_eq_none h, bucket?, List.idxOf?, List.findIdx?_append, hn]
    simp [List.findIdx?_cons]

/-- No assignment moves a project that has been assigned. -/
theorem bucket?_assign_of_eq_some {b : Buckets} {q : String} {i : Nat}
    (h : b.bucket? q = some i) (project : String) :
    (b.assign project).2.bucket? q = some i := by
  cases hp : b.bucket? project with
  | some j => rw [assign_of_eq_some hp, h]
  | none =>
    obtain ⟨k, hk, rfl⟩ := Option.map_eq_some_iff.mp h
    have hk' : b.projects.findIdx? (· == q) = some k := hk
    rw [assign_of_eq_none hp, bucket?, List.idxOf?, List.findIdx?_append, hk']
    rfl

end Buckets

end RepairCorpus
