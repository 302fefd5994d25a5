import Mathlib.Data.List.Nodup
import RepairCorpus.Abstraction.Hiding
import RepairCorpus.Proofs.Syntax.Places

/-!
# Masks

Both abstractions of a tree put placeholders in the place of some of its nodes and change nothing
else.  They differ in which nodes these are and what the placeholders are called, and they come by
that information in different ways: one carries a depth, the other counts identifiers level by
level.  What they have in common is said here once.  A *mask* gives names to some paths, and
`Node.masked` puts a placeholder of that name at each of them; below a placeholder there is nothing
left to replace, so of nested paths only the outermost counts.

Each abstraction is then a mask: `Node.collapse_eq` with the names `Node.collapsedName`, and
`Node.hide_eq` with the names `Node.hiddenName`.  Both also count the replaced nodes, and
`Node.maskedPaths` lists them.
-/

namespace RepairCorpus

/-- Names for the nodes that are to be replaced, by their paths. -/
abbrev Mask := Path → Option String

/-- The names a mask gives to the nodes below a part. -/
def Mask.below (names : Mask) (i : Nat) : Mask := fun p => names (i :: p)

/-- Nothing above a place in a part is named: the root is not, and in the part nothing above the place is. -/
theorem Mask.unnamed_above_cons {names : Mask} {i : Nat} {p : Path} :
    (∀ q, q <+: i :: p → q ≠ i :: p → names q = none) ↔
      names [] = none ∧ ∀ q, q <+: p → q ≠ p → names.below i q = none := by
  constructor
  · intro h
    refine ⟨h [] List.nil_prefix (List.cons_ne_nil i p).symm, fun q hq hne => ?_⟩
    exact h (i :: q) ((List.prefix_cons_inj i).mpr hq) fun heq => hne (List.cons.inj heq).2
  · rintro ⟨hnil, hbelow⟩ q hq hne
    cases q with
    | nil => exact hnil
    | cons j q =>
      obtain ⟨rfl, hpre⟩ := List.cons_prefix_cons.mp hq
      exact hbelow q hpre fun heq => hne (congrArg _ heq)

namespace Node

/-- Puts placeholders at the outermost named paths of a tree. -/
def masked : Node → Mask → Node :=
  fold fun own underlying form names =>
    match names [] with
    | some name => ⟨own, underlying, .placeholder name⟩
    | none => ⟨own, underlying, form.mapIdx fun i p => p.2 (names.below i)⟩

theorem masked_of_some {n : Node} {names : Mask} {name : String} (h : names [] = some name) :
    n.masked names = n.asPlaceholder name := by
  obtain ⟨own, underlying, form⟩ := n
  rw [masked, fold_mk, h]
  rfl

theorem masked_of_none {n : Node} {names : Mask} (h : names [] = none) :
    n.masked names = n.withForm (n.form.mapIdx fun i c => c.masked (names.below i)) := by
  obtain ⟨own, underlying, form⟩ := n
  rw [masked, fold_mk, ← masked, h, Form.map]
  simp only [Form.mapIdx_mapIdx]
  rfl

theorem own_masked (n : Node) (names : Mask) : (n.masked names).own = n.own := by
  cases h : names [] with
  | none => rw [masked_of_none h, own_withForm]
  | some name => rw [masked_of_some h, asPlaceholder, own_withForm]

/-- The outermost named paths of a tree, in source order. -/
def maskedPaths : Node → Mask → List Path :=
  fold fun _ _ form names =>
    match names [] with
    | some _ => [[]]
    | none => (form.children.mapIdx fun i p => (p.2 (names.below i)).map (i :: ·)).flatten

theorem maskedPaths_of_some {n : Node} {names : Mask} {name : String} (h : names [] = some name) :
    n.maskedPaths names = [[]] := by
  obtain ⟨own, underlying, form⟩ := n
  rw [maskedPaths, fold_mk, h]

theorem maskedPaths_of_none {n : Node} {names : Mask} (h : names [] = none) :
    n.maskedPaths names
      = (n.children.mapIdx fun i c => (c.maskedPaths (names.below i)).map (i :: ·)).flatten := by
  obtain ⟨own, underlying, form⟩ := n
  rw [maskedPaths, fold_mk, ← maskedPaths, h]
  simp only
  rw [Form.children_map]
  congr 1
  exact List.ext_getElem? fun i => by simp [children, Function.comp_def]

/-- Whether a path is one of the outermost named paths. -/
theorem mem_maskedPaths {n : Node} {names : Mask} {p : Path} :
    p ∈ n.maskedPaths names ↔ (∃ m, n.at? p = some m) ∧ (∃ name, names p = some name) ∧
      ∀ q, q <+: p → q ≠ p → names q = none := by
  induction p generalizing n names with
  | nil =>
    have hnone : ∀ q : Path, q <+: [] → q ≠ [] → names q = none :=
      fun q hq hne => absurd (List.prefix_nil.mp hq) hne
    have hself : ∃ m, n.at? [] = some m := ⟨n, at?_nil n⟩
    cases h : names [] with
    | some name =>
      rw [maskedPaths_of_some h]
      exact iff_of_true List.mem_cons_self ⟨hself, ⟨name, rfl⟩, hnone⟩
    | none =>
      rw [maskedPaths_of_none h]
      refine iff_of_false (fun hmem => ?_) fun ⟨_, ⟨_, hname⟩, _⟩ => by cases hname
      obtain ⟨ps, hps, hp⟩ := List.mem_flatten.mp hmem
      obtain ⟨i, hi, rfl⟩ := List.mem_mapIdx.mp hps
      obtain ⟨q, -, hq⟩ := List.mem_map.mp hp
      cases hq
  | cons i p ih =>
    cases h : names [] with
    | some name =>
      rw [maskedPaths_of_some h]
      refine iff_of_false (fun hmem => by cases List.mem_singleton.mp hmem) fun ⟨_, _, houter⟩ => ?_
      obtain ⟨hnil, -⟩ := Mask.unnamed_above_cons.mp houter
      rw [h] at hnil
      cases hnil
    | none =>
      rw [maskedPaths_of_none h, Path.cons_mem_flatten_iff, Mask.unnamed_above_cons, and_iff_right h,
        at?_cons]
      constructor
      · rintro ⟨c, hc, hp⟩
        rw [hc]
        exact ih.mp hp
      · rintro ⟨⟨m, hm⟩, hrest⟩
        obtain ⟨c, hc, hcm⟩ := Option.bind_eq_some_iff.mp hm
        exact ⟨c, hc, ih.mpr ⟨⟨m, hcm⟩, hrest⟩⟩

/-- No path is listed twice. -/
theorem nodup_maskedPaths (n : Node) (names : Mask) : (n.maskedPaths names).Nodup := by
  induction n using Node.induction generalizing names with
  | step own underlying form ih =>
    cases h : names [] with
    | some name =>
      rw [maskedPaths_of_some h]
      exact List.nodup_singleton _
    | none =>
      rw [maskedPaths_of_none h]
      exact Path.nodup_flatten fun i c hc => ih c (List.mem_of_getElem? hc) (names.below i)

/-- A placeholder stands at every listed path. -/
theorem at?_masked {n m : Node} {names : Mask} {p : Path} {name : String}
    (hp : p ∈ n.maskedPaths names) (hm : n.at? p = some m) (hname : names p = some name) :
    (n.masked names).at? p = some (m.asPlaceholder name) := by
  induction p generalizing n names with
  | nil =>
    rw [masked_of_some hname, at?_nil, ← Option.some.inj ((at?_nil n).symm.trans hm)]
  | cons i p ih =>
    obtain ⟨-, -, houter⟩ := mem_maskedPaths.mp hp
    obtain ⟨hnil, hbelow⟩ := Mask.unnamed_above_cons.mp houter
    rw [at?_cons] at hm
    obtain ⟨c, hc, hcm⟩ := Option.bind_eq_some_iff.mp hm
    have hp' : p ∈ c.maskedPaths (names.below i) :=
      mem_maskedPaths.mpr ⟨⟨m, hcm⟩, ⟨name, hname⟩, hbelow⟩
    rw [masked_of_none hnil, at?_cons, children_withForm, Form.children_mapIdx,
      List.getElem?_mapIdx, show n.form.children[i]? = some c from hc]
    exact ih hp' hcm hname

/-- Parts that are abstracted by masks make a construct that is abstracted by the mask they are
part of. -/
theorem gather_masked {n : Node} {names : Mask} {f : Nat → Node → Abstracted}
    (hnil : names [] = none)
    (hf : ∀ i c, n.children[i]? = some c →
      f i c = ⟨c.masked (names.below i), (c.maskedPaths (names.below i)).length⟩) :
    n.withForm (gather (n.form.mapIdx f)).1 = n.masked names ∧
      (gather (n.form.mapIdx f)).2 = (n.maskedPaths names).length := by
  have hforms : n.form.mapIdx f = n.form.mapIdx fun i c =>
      ⟨c.masked (names.below i), (c.maskedPaths (names.below i)).length⟩ := Form.mapIdx_congr hf
  rw [hforms]
  constructor
  · rw [masked_of_none hnil, gather, Form.map, Form.mapIdx_mapIdx]
  · have hcount (xs : List (List Path)) : (xs.map List.length).foldr (· + ·) 0 = xs.flatten.length := by
      rw [List.length_flatten]
      rfl
    rw [maskedPaths_of_none hnil, ← hcount, gather]
    simp only [Form.children_mapIdx]
    congr 1
    exact List.ext_getElem? fun i => by simp [children, Function.comp_def]

/-! ## Collapsing is a mask -/

/-- The number of blocks and object literals on the way to the end of a path, the end itself not
counted. -/
def levelsOn : Node → Path → Nat
  | _, [] => 0
  | n, i :: p => n.kind.depthStep +
    match n.children[i]? with
    | some c => c.levelsOn p
    | none => 0

/-- The depth of the node at the end of a path: the number of blocks and object literals strictly
between the root and that node. -/
def depthOf (n : Node) : Path → Nat
  | [] => 0
  | i :: p =>
    match n.children[i]? with
    | some c => c.levelsOn p
    | none => 0

section Collapsing

variable (placeholders : PlaceholderMap) (minDepth : Nat)

/-- What collapsing calls the nodes of a tree that itself lies at a depth. -/
def collapsedNameFrom (n : Node) (depth : Nat) : Mask := fun p =>
  (n.at? p).bind fun m => if minDepth ≤ depth + n.levelsOn p then placeholders m.kind else none

/-- What collapsing calls the nodes of a tree: those below the root that lie deep enough get the
placeholders of their kinds. -/
def collapsedName (n : Node) : Mask := fun p =>
  if p = [] then none
  else (n.at? p).bind fun m => if minDepth ≤ n.depthOf p then placeholders m.kind else none

theorem collapsedName_eq_some_iff {n : Node} {p : Path} {name : String} :
    n.collapsedName placeholders minDepth p = some name ↔ p ≠ [] ∧ ∃ m, n.at? p = some m ∧
      minDepth ≤ n.depthOf p ∧ placeholders m.kind = some name := by
  unfold collapsedName
  split
  next h => exact iff_of_false nofun fun hp => hp.1 h
  next h =>
    rw [and_iff_right h, Option.bind_eq_some_iff]
    refine exists_congr fun m => and_congr_right fun _ => ?_
    split
    next hd => exact (and_iff_right hd).symm
    next hd => exact iff_of_false nofun fun hm => hd hm.1

theorem below_collapsedNameFrom {n c : Node} {i : Nat} (hc : n.children[i]? = some c)
    (depth : Nat) :
    (n.collapsedNameFrom placeholders minDepth depth).below i
      = c.collapsedNameFrom placeholders minDepth (depth + n.kind.depthStep) := by
  funext p
  rw [Mask.below, collapsedNameFrom, collapsedNameFrom, at?_cons, hc, levelsOn, hc, Nat.add_assoc]
  rfl

theorem below_collapsedName {n c : Node} {i : Nat} (hc : n.children[i]? = some c) :
    (n.collapsedName placeholders minDepth).below i
      = c.collapsedNameFrom placeholders minDepth 0 := by
  funext p
  rw [Mask.below, collapsedName, if_neg (List.cons_ne_nil i p), collapsedNameFrom, at?_cons, hc,
    depthOf, hc, Nat.zero_add]
  rfl

theorem collapseFrom_mk (own underlying : Tag) (form : Form Node) (depth : Nat) :
    collapseFrom placeholders minDepth ⟨own, underlying, form⟩ depth =
      match (if minDepth ≤ depth then placeholders form.kind else none) with
      | some name => ⟨⟨own, underlying, .placeholder name⟩, 1⟩
      | none =>
        let parts := gather (form.map fun c =>
          c.collapseFrom placeholders minDepth (depth + form.kind.depthStep))
        ⟨⟨own, underlying, parts.1⟩, parts.2⟩ := by
  rw [collapseFrom, fold_mk, ← collapseFrom]
  simp only [Form.kind_map]
  cases placeholders form.kind with
  | none => simp only [ite_self, Form.map_map]; rfl
  | some name =>
    by_cases h : minDepth ≤ depth
    · simp only [if_pos h]
    · simp only [if_neg h, Form.map_map]; rfl

/-- **Collapsing a part of a tree masks it.** -/
theorem collapseFrom_eq (n : Node) (depth : Nat) :
    n.collapseFrom placeholders minDepth depth =
      ⟨n.masked (n.collapsedNameFrom placeholders minDepth depth),
        (n.maskedPaths (n.collapsedNameFrom placeholders minDepth depth)).length⟩ := by
  induction n using Node.induction generalizing depth with
  | step own underlying form ih =>
    have hnil : collapsedNameFrom placeholders minDepth ⟨own, underlying, form⟩ depth []
        = if minDepth ≤ depth then placeholders form.kind else none := by
      rw [collapsedNameFrom, at?_nil, levelsOn, Nat.add_zero]
      rfl
    rw [collapseFrom_mk]
    cases h : (if minDepth ≤ depth then placeholders form.kind else none) with
    | some name =>
      rw [h] at hnil
      rw [masked_of_some hnil, maskedPaths_of_some hnil]
      rfl
    | none =>
      rw [h] at hnil
      obtain ⟨htree, hcount⟩ := gather_masked (n := ⟨own, underlying, form⟩)
        (f := fun _ c => c.collapseFrom placeholders minDepth (depth + form.kind.depthStep)) hnil
        fun i c hc => by
          rw [ih c (List.mem_of_getElem? hc), below_collapsedNameFrom placeholders minDepth hc]
          rfl
      rw [← htree, ← hcount]
      rfl

/-- **Collapsing a tree masks it.** -/
theorem collapse_eq (n : Node) :
    n.collapse placeholders minDepth =
      ⟨n.masked (n.collapsedName placeholders minDepth),
        (n.maskedPaths (n.collapsedName placeholders minDepth)).length⟩ := by
  have hnil : n.collapsedName placeholders minDepth [] = none := if_pos rfl
  obtain ⟨htree, hcount⟩ := gather_masked
    (f := fun _ c => c.collapseFrom placeholders minDepth 0) hnil fun i c hc => by
      rw [collapseFrom_eq, below_collapsedName placeholders minDepth hc]
  rw [← htree, ← hcount]
  rfl

end Collapsing

end Node

/-! ## Hiding is a mask -/

/-- Hiding looks at a construct and not at its parts. -/
theorem Form.disguise_map {α β : Type} (known : String → Bool) (f : α → β) (form : Form α) :
    (form.map f).disguise known = form.disguise known := by
  cases form <;> rfl

namespace Node

section Hiding

variable (known : String → Bool) (unique : Bool)

/-- What hiding calls a node, when it knows how many identifiers of each level lie before it. -/
def disguiseName (n : Node) (before : List Nat) : Option String :=
  match n.form.disguise known with
  | .keep => none
  | .identifier =>
    some (identifierPlaceholder (if unique then some (before.headD 0 + 1) else none))
  | .fixed name => some name

/-- The numbers of identifiers before the parts of a node, level by level. -/
def startsOfParts (n : Node) (before : List Nat) : List (List Nat) :=
  startsFrom before (n.children.map (levels known))

/-- What hiding calls the nodes of a tree that is itself a part. -/
def hiddenNameFrom : Node → List Nat → Mask
  | n, before, [] => n.disguiseName known unique before
  | n, before, i :: p =>
    match n.children[i]? with
    | some c => c.hiddenNameFrom ((n.startsOfParts known before.tail).getD i []) p
    | none => none

theorem below_hiddenNameFrom {n c : Node} {i : Nat} (hc : n.children[i]? = some c)
    (before : List Nat) :
    (n.hiddenNameFrom known unique before).below i
      = c.hiddenNameFrom known unique ((n.startsOfParts known before.tail).getD i []) := by
  funext p
  rw [Mask.below, hiddenNameFrom, hc]

theorem hideFrom_mk (own underlying : Tag) (form : Form Node) (before : List Nat) :
    hideFrom known unique ⟨own, underlying, form⟩ before =
      match disguiseName known unique ⟨own, underlying, form⟩ before with
      | some name => ⟨⟨own, underlying, .placeholder name⟩, 1⟩
      | none =>
        let starts := startsOfParts known ⟨own, underlying, form⟩ before.tail
        let parts := gather (form.mapIdx fun i c => c.hideFrom known unique (starts.getD i []))
        ⟨⟨own, underlying, parts.1⟩, parts.2⟩ := by
  rw [hideFrom, fold_mk, ← hideFrom, disguiseName]
  simp only [Form.disguise_map]
  cases form.disguise known with
  | identifier => rfl
  | fixed name => rfl
  | keep =>
    simp only [Form.map, Form.mapIdx_mapIdx, Form.children_mapIdx, Form.mapIdx_const,
      List.map_map]
    rfl

/-- **Hiding words of a part of a tree masks it.** -/
theorem hideFrom_eq (n : Node) (before : List Nat) :
    n.hideFrom known unique before =
      ⟨n.masked (n.hiddenNameFrom known unique before),
        (n.maskedPaths (n.hiddenNameFrom known unique before)).length⟩ := by
  induction n using Node.induction generalizing before with
  | step own underlying form ih =>
    rw [hideFrom_mk]
    cases h : disguiseName known unique ⟨own, underlying, form⟩ before with
    | some name =>
      have hnil : hiddenNameFrom known unique ⟨own, underlying, form⟩ before [] = some name := h
      rw [masked_of_some hnil, maskedPaths_of_some hnil]
      rfl
    | none =>
      have hnil : hiddenNameFrom known unique ⟨own, underlying, form⟩ before [] = none := h
      obtain ⟨htree, hcount⟩ := gather_masked (n := ⟨own, underlying, form⟩)
        (f := fun i c => c.hideFrom known unique
          ((startsOfParts known ⟨own, underlying, form⟩ before.tail).getD i [])) hnil
        fun i c hc => by
          rw [ih c (List.mem_of_getElem? hc), below_hiddenNameFrom known unique hc]
      rw [← htree, ← hcount]
      rfl

end Hiding

/-- The numbers of identifiers before the parts of a tree, level by level, when some have been
numbered before the tree. -/
def startsOfTree (n : Node) (known : String → Bool) (counter : Nat) : List (List Nat) :=
  n.startsOfParts known (totalsFrom counter ((n.children.map (levels known)).foldl addLevels []))

/-- What hiding calls the nodes of a tree. -/
def hiddenName (n : Node) (v : Vocabulary) (unique : Bool) (counter : Nat) : Mask
  | [] => none
  | i :: p =>
    match n.children[i]? with
    | some c =>
      c.hiddenNameFrom v.contains unique ((n.startsOfTree v.contains counter).getD i []) p
    | none => none

theorem below_hiddenName {n c : Node} {i : Nat} (hc : n.children[i]? = some c) (v : Vocabulary)
    (unique : Bool) (counter : Nat) :
    (n.hiddenName v unique counter).below i
      = c.hiddenNameFrom v.contains unique ((n.startsOfTree v.contains counter).getD i []) := by
  funext p
  rw [Mask.below, hiddenName, hc]

/-- **Hiding words of a tree masks it.** -/
theorem hide_eq (n : Node) (v : Vocabulary) (unique : Bool) (counter : Nat) :
    (n.hide v unique counter).tree = n.masked (n.hiddenName v unique counter) ∧
      (n.hide v unique counter).replaced
        = (n.maskedPaths (n.hiddenName v unique counter)).length := by
  refine gather_masked rfl fun i c hc => ?_
  rw [below_hiddenName hc, ← hideFrom_eq]
  rfl

end Node

end RepairCorpus
