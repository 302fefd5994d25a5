import Std.Data.HashMap

/-!
# A table of buckets

An assignment of projects to buckets can be kept as a table.  A project gets its bucket when it is first
seen: the number of projects in the table by then, modulo the number of buckets.  Nothing in the table
tells the order in which the projects came, so the bucket is written down and looked up from then on.
-/

namespace RepairCorpus

/-- Projects with their buckets. -/
structure BucketTable where
  /-- The number of buckets. -/
  count : Nat
  table : Std.HashMap String Nat

namespace BucketTable

/-- No project assigned yet; there is at least one bucket. -/
def new (count : Nat) : BucketTable := ⟨max count 1, ∅⟩

/-- The bucket of a project, if it has been assigned. -/
def bucket? (t : BucketTable) (project : String) : Option Nat := t.table[project]?

/-- The number of projects that have been assigned. -/
def size (t : BucketTable) : Nat := t.table.size

/-- The bucket of a project, with the table after the project has been assigned. -/
def assign (t : BucketTable) (project : String) : Nat × BucketTable :=
  match t.bucket? project with
  | some i => (i, t)
  | none =>
    let i := t.size % t.count
    (i, { t with table := t.table.insert project i })

end BucketTable

end RepairCorpus
