import RepairCorpus.Syntax.Node

/-!
# Paths

A path leads from the root of a tree to one of its nodes: each entry is the number of a part among
the parts that are present.  `at?` looks a node up and `setAt` puts another one in its place.  The
two obey the laws of a lens:

* `at?_setAt_self`: what has been put is found;
* `setAt_at?`: putting back what was found changes nothing;
* `setAt_setAt`: of two nodes put at one place the second stays.
-/

namespace RepairCorpus

/-- Numbers of parts, from the root downwards. -/
abbrev Path := List Nat

namespace Node

/-- The node at the end of a path. -/
def at? : Node → Path → Option Node
  | n, [] => some n
  | n, i :: p => n.children[i]?.bind fun c => c.at? p

/-- Puts a node at the end of a path; a path that leads nowhere changes nothing. -/
def setAt : Node → Path → Node → Node
  | _, [], x => x
  | n, i :: p, x =>
    match n.children[i]? with
    | none => n
    | some c => n.withForm (n.form.setChild i (c.setAt p x))

@[simp] theorem at?_nil (n : Node) : n.at? [] = some n := by cases n; rfl

@[simp] theorem at?_cons (n : Node) (i : Nat) (p : Path) :
    n.at? (i :: p) = n.children[i]?.bind fun c => c.at? p := by cases n; rfl

@[simp] theorem setAt_nil (n x : Node) : n.setAt [] x = x := by cases n; rfl

theorem setAt_cons (n : Node) (i : Nat) (p : Path) (x : Node) :
    n.setAt (i :: p) x =
      match n.children[i]? with
      | none => n
      | some c => n.withForm (n.form.setChild i (c.setAt p x)) := by cases n; rfl

theorem at?_append (n : Node) (p q : Path) :
    n.at? (p ++ q) = (n.at? p).bind fun m => m.at? q := by
  induction p generalizing n with
  | nil => simp
  | cons i p ih => simp [ih, Option.bind_assoc]

/-- **What has been put at a path is found there.** -/
theorem at?_setAt_self {n m : Node} {p : Path} (h : n.at? p = some m) (x : Node) :
    (n.setAt p x).at? p = some x := by
  induction p generalizing n with
  | nil => simp
  | cons i p ih =>
    rw [at?_cons] at h
    obtain ⟨c, hc, hp⟩ := Option.bind_eq_some_iff.mp h
    obtain ⟨hi, -⟩ := List.getElem?_eq_some_iff.mp hc
    have hi' : i < n.form.children.length := hi
    simp [setAt_cons, hc, Form.children_setChild, List.getElem?_set_self hi', ih hp]

/-- **Putting back what was found changes nothing.** -/
theorem setAt_at? {n m : Node} {p : Path} (h : n.at? p = some m) : n.setAt p m = n := by
  induction p generalizing n with
  | nil => simpa using h.symm
  | cons i p ih =>
    rw [at?_cons] at h
    obtain ⟨c, hc, hp⟩ := Option.bind_eq_some_iff.mp h
    simp only [setAt_cons, hc, ih hp]
    rw [Form.setChild_eq_self hc, withForm_form]

/-- **Of two nodes put at one path the second stays.** -/
theorem setAt_setAt {n m : Node} {p : Path} (h : n.at? p = some m) (x y : Node) :
    (n.setAt p x).setAt p y = n.setAt p y := by
  induction p generalizing n with
  | nil => simp
  | cons i p ih =>
    rw [at?_cons] at h
    obtain ⟨c, hc, hp⟩ := Option.bind_eq_some_iff.mp h
    obtain ⟨hi, -⟩ := List.getElem?_eq_some_iff.mp hc
    have hi' : i < n.form.children.length := hi
    simp [setAt_cons, hc, Form.children_setChild, List.getElem?_set_self hi', ih hp]

end Node

end RepairCorpus
