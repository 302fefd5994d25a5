import RepairCorpus.Proofs.Abstraction.OutermostConstructs

/-!
# Collapsing twice

A tree may be collapsed with one bound and then with another.  The second run meets placeholders where
the first has been, and subtrees of the original tree are gone.  Still nothing is lost: what the
second run sees lies as deep as it lay before, and a placeholder is hidden by none of the maps
considered here, so the two runs do what the run with the lesser bound does alone.

If the second bound is the lesser one, it asks for more constructs than the first, the outermost ones
among them.  This is a matter of masks, `Node.masked_masked`: carrying out a part of a mask and then
what it has left over is carrying it out.  If the first bound is the lesser one there is nothing left
over at all.
-/

namespace RepairCorpus

/-- What a mask has left over when another one has been carried out. -/
def Mask.without (names done : Mask) : Mask := fun p => if (done p).isSome then none else names p

theorem Mask.without_of_none {names done : Mask} {p : Path} (h : done p = none) :
    names.without done p = names p := by
  simp [without, h]

theorem Mask.without_of_some {names done : Mask} {p : Path} {name : String}
    (h : done p = some name) : names.without done p = none := by
  simp [without, h]

namespace Node

/-- **A part of a mask and then the rest of it are the mask.** -/
theorem masked_masked {n : Node} {part names : Mask}
    (h : ∀ p name, part p = some name → names p = some name) :
    (n.masked part).masked (names.without part) = n.masked names := by
  induction n using Node.induction generalizing part names with
  | step own underlying form ih =>
    cases hpart : part [] with
    | some name =>
      -- a placeholder is already there, and nothing lies below it
      rw [masked_of_some hpart, masked_of_some (h [] name hpart),
        masked_of_none (Mask.without_of_some hpart)]
      rfl
    | none =>
      have hrest : names.without part [] = names [] := Mask.without_of_none hpart
      cases hname : names [] with
      | some name =>
        rw [masked_of_none hpart, masked_of_some hname, masked_of_some (hrest.trans hname)]
        rfl
      | none =>
        rw [masked_of_none hpart, masked_of_none hname, masked_of_none (hrest.trans hname),
          form_withForm, withForm_withForm, Form.mapIdx_mapIdx]
        refine congrArg _ (Form.mapIdx_congr fun i c hc => ?_)
        exact ih c (List.mem_of_getElem? hc) fun p name hp => h (i :: p) name hp

section Bounds

variable {placeholders : PlaceholderMap} {first second : Nat}

/-- A lesser bound asks for more constructs, and by the same names. -/
theorem collapsedName_mono (n : Node) (h : second ≤ first) (p : Path) (name : String)
    (hname : n.collapsedName placeholders first p = some name) :
    n.collapsedName placeholders second p = some name := by
  obtain ⟨hp, m, hm, hdepth, hmapped⟩ := (collapsedName_eq_some_iff placeholders first).mp hname
  exact (collapsedName_eq_some_iff placeholders second).mpr
    ⟨hp, m, hm, Nat.le_trans h hdepth, hmapped⟩

/-- What a second run asks for is what the first has left over. -/
theorem collapsedName_masked (hplaceholder : placeholders .placeholder = none) {n m' : Node}
    {p : Path} (hm' : (n.masked (n.collapsedName placeholders first)).at? p = some m') :
    (n.masked (n.collapsedName placeholders first)).collapsedName placeholders second p
      = (n.collapsedName placeholders second).without (n.collapsedName placeholders first) p := by
  by_cases hp : p = []
  · rw [hp]
    rfl
  · obtain ⟨m, hm, -, hcase⟩ := exists_at?_of_at?_masked hm'
    rw [collapsedName_of_at? placeholders second hp hm', depthOf_masked rfl hm']
    rcases hcase with ⟨name, hname, rfl⟩ | ⟨hname, rfl⟩
    · rw [Mask.without_of_some hname]
      show (if _ then placeholders .placeholder else none) = none
      rw [hplaceholder, ite_self]
    · rw [Mask.without_of_none hname, collapsedName_of_at? placeholders second hp hm, kind_masked]
      rw [List.append_nil]
      exact hname

/-- A second run with a lesser bound makes up for the first. -/
theorem collapse_collapse_of_le (hplaceholder : placeholders .placeholder = none) (n : Node)
    (h : second ≤ first) :
    ((n.collapse placeholders first).tree.collapse placeholders second).tree
      = (n.collapse placeholders second).tree := by
  rw [collapse_eq, collapse_eq, collapse_eq]
  show (n.masked _).masked _ = n.masked _
  rw [(masked_congr fun p m' hm' => collapsedName_masked hplaceholder hm').1]
  exact masked_masked (n.collapsedName_mono h)

/-- A second run with a greater bound finds nothing. -/
theorem collapse_collapse_of_ge (hplaceholder : placeholders .placeholder = none) (n : Node)
    (h : first ≤ second) :
    (n.collapse placeholders first).tree.collapse placeholders second
      = ⟨(n.collapse placeholders first).tree, 0⟩ := by
  refine collapse_eq_self fun p m hp hm hdepth => ?_
  exact collapsed_collapse n first hplaceholder p m hp hm (Nat.le_trans h hdepth)

/-- **Collapsing twice is collapsing with the lesser bound.**  Let placeholders not be mapped
themselves.  The tree that has been collapsed with two bounds is the tree that has been collapsed with
the lesser of them, in whatever order the bounds come.  A second run with a bound that is not less
than the first replaces nothing, and so it is if the bounds are the same. -/
theorem collapse_with_two_bounds (n : Node) (placeholders : PlaceholderMap)
    (hplaceholder : placeholders .placeholder = none) (first second : Nat) :
    let once := n.collapseInPlace placeholders first
    let twice := once.tree.collapseInPlace placeholders second
    twice.tree = (n.collapseInPlace placeholders (min first second)).tree ∧
      twice.tree = ((n.collapseInPlace placeholders second).tree.collapseInPlace
        placeholders first).tree ∧
      (first ≤ second → twice = ⟨once.tree, 0⟩) ∧
      once.tree.collapseInPlace placeholders first = ⟨once.tree, 0⟩ := by
  intro once twice
  have hlesser (a b : Nat) : ((n.collapse placeholders a).tree.collapse placeholders b).tree
      = (n.collapse placeholders (min a b)).tree := by
    rcases Nat.le_total a b with hab | hab
    · rw [collapse_collapse_of_ge hplaceholder n hab, Nat.min_eq_left hab]
    · rw [collapse_collapse_of_le hplaceholder n hab, Nat.min_eq_right hab]
  simp only [once, twice, collapseInPlace_eq]
  refine ⟨hlesser first second, ?_, ?_, ?_⟩
  · rw [hlesser first second, hlesser second first, Nat.min_comm]
  · intro hle
    exact collapse_collapse_of_ge hplaceholder n hle
  · exact collapse_collapse_of_ge hplaceholder n (Nat.le_refl first)

/-- A program with a function in which an object literal is returned. -/
def returningProgram : Node :=
  untagged (.program [untagged (.functionDeclaration (some (untagged (.identifier "f"))) []
    (untagged (.blockStatement [untagged (.returnStatement
      (some (untagged (.objectExpression []))))])))])

/-- The first run hides the literal in the body and the second the function around it, as a single
run does without the first. -/
theorem returningProgram_with_two_bounds :
    defaultPlaceholders .placeholder = none ∧
    (returningProgram.collapseInPlace defaultPlaceholders 1).replaced = 1 ∧
    ((returningProgram.collapseInPlace defaultPlaceholders 1).tree.collapseInPlace
      defaultPlaceholders 0).replaced = 1 ∧
    ((returningProgram.collapseInPlace defaultPlaceholders 1).tree.collapseInPlace
      defaultPlaceholders 0).tree = (returningProgram.collapseInPlace defaultPlaceholders 0).tree :=
  ⟨rfl, rfl, rfl, (collapse_with_two_bounds returningProgram defaultPlaceholders rfl 1 0).1⟩

end Bounds

end Node

end RepairCorpus
