import RepairCorpus.Mutation.Candidate

/-!
# Searching for candidates

All candidates of a tree can be found on one way through it that keeps a single path.  The path is
made longer when the search goes into a part and shorter when it comes back, and it is copied only
where a candidate is found.  The search itself never looks a path up.
-/

namespace RepairCorpus

/-- The state of a search. -/
structure Search where
  /-- The path from the root to where the search stands. -/
  path : Path
  /-- The candidates found so far, in the order in which they were found. -/
  found : List Candidate
  deriving DecidableEq, Inhabited

namespace Search

/-- Goes into the part with a number. -/
def enter (s : Search) (i : Nat) : Search := { s with path := s.path ++ [i] }

/-- Comes back from a part. -/
def leave (s : Search) : Search := { s with path := s.path.dropLast }

/-- Notes the part with a number as a candidate. -/
def note (s : Search) (i : Nat) : Search := { s with found := s.found ++ [⟨s.path, i⟩] }

end Search

namespace Node

/-- Searches below a node: each part is looked at before the search goes into it. -/
def visit : Node → Search → Search :=
  fold fun _ _ form s => form.children.zipIdx.foldl (fun s c =>
    let s := if c.1.1.isInsertedTry then s.note c.2 else s
    (c.1.2 (s.enter c.2)).leave) s

/-- The candidates of a tree as a search finds them. -/
def discover (n : Node) : List Candidate := (n.visit ⟨[], []⟩).found

theorem visit_mk (own underlying : Tag) (form : Form Node) (s : Search) :
    visit ⟨own, underlying, form⟩ s = form.children.zipIdx.foldl (fun s c =>
      (c.1.visit ((if c.1.isInsertedTry then s.note c.2 else s).enter c.2)).leave) s := by
  rw [visit, fold_mk, ← visit, Form.children_map, List.zipIdx_map, List.foldl_map]
  rfl

end Node

end RepairCorpus
