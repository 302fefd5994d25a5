import RepairCorpus.Abstraction.Prepare
import RepairCorpus.Proofs.Abstraction.Replacements

/-!
# Closed forms

Abstracting a tree a second time should find nothing left to do.  That is not clear from one pass to
the next: the second run sees the placeholders of the first, it counts depths along paths that the
first may have cut, and it decides anew whether the tree is a single function, which the first run
took into account.  So closure is said of trees alone.  A tree is *collapsed* if no mapped construct
lies deep enough to be hidden, and *familiar* if every word below the root is known; a pass brings a
tree into its form and has no effect on a tree that is in it.

* `Node.exists_at?_of_at?_masked`: what stands in a masked tree, read off the tree before.
* `Node.depthOf_masked`: what is still there lies as deep as before.
* `Node.collapsed_collapse`, `Node.collapse_eq_self`: collapsing.
* `Node.familiar_hide`, `Node.hide_eq_self`: hiding.
* `Node.defaultMinDepth_masked`: masks that leave a single function alone make no other.
* `Node.prepare_closes`: **a tree that has been abstracted is in both forms and stays as it is**.
-/

namespace RepairCorpus

theorem Form.disguise_mapIdx {α β : Type} (known : String → Bool) (f : Nat → α → β) (form : Form α) :
    (form.mapIdx f).disguise known = form.disguise known := by
  cases form <;> rfl

namespace Node

/-! ## Masked trees -/

/-- A mask that names no node changes nothing. -/
theorem masked_eq_self {n : Node} {names : Mask} (h : ∀ p m, n.at? p = some m → names p = none) :
    n.masked names = n ∧ n.maskedPaths names = [] := by
  constructor
  · induction n using Node.induction generalizing names with
    | step own underlying form ih =>
      have hnil : names [] = none := h [] _ (at?_nil _)
      have hparts : (form.mapIdx fun i c => c.masked (names.below i)) = form.mapIdx fun _ c => c := by
        refine Form.mapIdx_congr fun i c hc => ?_
        refine ih c (List.mem_of_getElem? hc) fun p m hm => ?_
        refine h (i :: p) m ?_
        rw [at?_cons, show children ⟨own, underlying, form⟩ = form.children from rfl, hc]
        exact hm
      rw [masked_of_none hnil, hparts, Form.mapIdx_eq_self fun _ _ => rfl]
      rfl
  · refine List.eq_nil_iff_forall_not_mem.mpr fun p hp => ?_
    obtain ⟨⟨m, hm⟩, ⟨name, hname⟩, -⟩ := mem_maskedPaths.mp hp
    rw [h p m hm] at hname
    cases hname

theorem kind_masked {n : Node} {names : Mask} (h : names [] = none) :
    (n.masked names).kind = n.kind := by
  rw [masked_of_none h, kind, form_withForm, Form.kind_mapIdx]
  rfl

theorem getElem?_children_masked {n : Node} {names : Mask} (h : names [] = none) (i : Nat) :
    (n.masked names).children[i]? = n.children[i]?.map fun c => c.masked (names.below i) := by
  rw [masked_of_none h, children_withForm, Form.children_mapIdx, List.getElem?_mapIdx]
  rfl

/-- What stands in a masked tree is a placeholder or comes from a node without a name, and no node
above it has one. -/
theorem exists_at?_of_at?_masked {n m' : Node} {names : Mask} {p : Path}
    (h : (n.masked names).at? p = some m') :
    ∃ m, n.at? p = some m ∧ (∀ q, q <+: p → q ≠ p → names q = none) ∧
      ((∃ name, names p = some name ∧ m' = m.asPlaceholder name) ∨
        names p = none ∧ m' = m.masked fun q => names (p ++ q)) := by
  induction p generalizing n names with
  | nil =>
    refine ⟨n, at?_nil n, fun q hq hne => absurd (List.prefix_nil.mp hq) hne, ?_⟩
    rw [at?_nil] at h
    cases h
    cases hnil : names [] with
    | some name => exact Or.inl ⟨name, rfl, masked_of_some hnil⟩
    | none => exact Or.inr ⟨rfl, rfl⟩
  | cons i p ih =>
    cases hnil : names [] with
    | some name =>
      -- a placeholder has no parts
      rw [masked_of_some hnil, at?_cons] at h
      cases h
    | none =>
      rw [at?_cons, getElem?_children_masked hnil] at h
      obtain ⟨c', hc', hm'⟩ := Option.bind_eq_some_iff.mp h
      obtain ⟨c, hc, rfl⟩ := Option.map_eq_some_iff.mp hc'
      obtain ⟨m, hm, habove, hcase⟩ := ih hm'
      refine ⟨m, ?_, Mask.unnamed_above_cons.mpr ⟨hnil, habove⟩, hcase⟩
      rw [at?_cons, hc]
      exact hm

theorem levelsOn_masked {n m' : Node} {names : Mask} {p : Path}
    (h : (n.masked names).at? p = some m') : (n.masked names).levelsOn p = n.levelsOn p := by
  induction p generalizing n names with
  | nil => rw [levelsOn, levelsOn]
  | cons i p ih =>
    cases hnil : names [] with
    | some name =>
      rw [masked_of_some hnil, at?_cons] at h
      cases h
    | none =>
      rw [at?_cons, getElem?_children_masked hnil] at h
      obtain ⟨c', hc', hm'⟩ := Option.bind_eq_some_iff.mp h
      obtain ⟨c, hc, rfl⟩ := Option.map_eq_some_iff.mp hc'
      rw [levelsOn, levelsOn, kind_masked hnil, getElem?_children_masked hnil, hc]
      simp only [Option.map_some, ih hm']

/-- **What is still there lies as deep as before.** -/
theorem depthOf_masked {n m' : Node} {names : Mask} {p : Path} (hnil : names [] = none)
    (h : (n.masked names).at? p = some m') : (n.masked names).depthOf p = n.depthOf p := by
  cases p with
  | nil => rw [depthOf, depthOf]
  | cons i p =>
    rw [at?_cons, getElem?_children_masked hnil] at h
    obtain ⟨c', hc', hm'⟩ := Option.bind_eq_some_iff.mp h
    obtain ⟨c, hc, rfl⟩ := Option.map_eq_some_iff.mp hc'
    rw [depthOf, depthOf, getElem?_children_masked hnil, hc]
    simp only [Option.map_some, levelsOn_masked hm']

/-! ## Collapsed trees -/

/-- Whether no construct below the root that is mapped lies at `minDepth` or deeper. -/
def Collapsed (placeholders : PlaceholderMap) (minDepth : Nat) (n : Node) : Prop :=
  ∀ p m, p ≠ [] → n.at? p = some m → minDepth ≤ n.depthOf p → placeholders m.kind = none

section Collapsing

variable {placeholders : PlaceholderMap} {minDepth : Nat}

/-- A mask that makes no mapped construct keeps trees collapsed. -/
theorem Collapsed.masked {n : Node} {names : Mask} (h : n.Collapsed placeholders minDepth)
    (hplaceholder : placeholders .placeholder = none) (hnil : names [] = none) :
    (n.masked names).Collapsed placeholders minDepth := by
  intro p m' hp hm' hdepth
  obtain ⟨m, hm, -, ⟨name, -, rfl⟩ | ⟨hname, rfl⟩⟩ := exists_at?_of_at?_masked hm'
  · exact hplaceholder
  · rw [depthOf_masked hnil hm'] at hdepth
    rw [kind_masked]
    · exact h p m hp hm hdepth
    · rw [List.append_nil]
      exact hname

/-- **Collapsing brings a tree into its form**, unless placeholders are mapped themselves. -/
theorem collapsed_collapse (n : Node) (minDepth : Nat)
    (hplaceholder : placeholders .placeholder = none) :
    (n.collapse placeholders minDepth).tree.Collapsed placeholders minDepth := by
  intro p m' hp hm' hdepth
  rw [collapse_eq] at hm' hdepth
  obtain ⟨m, hm, -, ⟨name, -, rfl⟩ | ⟨hname, rfl⟩⟩ := exists_at?_of_at?_masked hm'
  · exact hplaceholder
  · rw [depthOf_masked rfl hm'] at hdepth
    rw [kind_masked]
    · by_contra hmapped
      obtain ⟨name, hmapped⟩ := Option.ne_none_iff_exists'.mp hmapped
      have hnamed := (collapsedName_eq_some_iff placeholders minDepth).mpr
        ⟨hp, m, hm, hdepth, hmapped⟩
      rw [hname] at hnamed
      cases hnamed
    · rw [List.append_nil]
      exact hname

/-- **Collapsing has no effect on a collapsed tree.** -/
theorem collapse_eq_self {n : Node} (h : n.Collapsed placeholders minDepth) :
    n.collapse placeholders minDepth = ⟨n, 0⟩ := by
  have hunnamed : ∀ p m, n.at? p = some m → n.collapsedName placeholders minDepth p = none := by
    intro p m hm
    by_contra hname
    obtain ⟨name, hname⟩ := Option.ne_none_iff_exists'.mp hname
    obtain ⟨hp, k, hk, hdepth, hmapped⟩ := (collapsedName_eq_some_iff placeholders minDepth).mp hname
    rw [h p k hp hk hdepth] at hmapped
    cases hmapped
  obtain ⟨htree, hpaths⟩ := masked_eq_self hunnamed
  rw [collapse_eq, htree, hpaths]
  rfl

end Collapsing

/-! ## Familiar trees -/

/-- Whether hiding would keep every node below the root. -/
def Familiar (known : String → Bool) (n : Node) : Prop :=
  ∀ p m, p ≠ [] → n.at? p = some m → m.form.disguise known = .keep

section Hiding

variable {v : Vocabulary}

/-- **Hiding brings a tree into its form.** -/
theorem familiar_hide (n : Node) (unique : Bool) (counter : Nat) :
    (n.hide v unique counter).tree.Familiar v.contains := by
  intro p m' hp hm'
  rw [(hide_eq n v unique counter).1] at hm'
  obtain ⟨m, hm, -, ⟨name, -, rfl⟩ | ⟨hname, rfl⟩⟩ := exists_at?_of_at?_masked hm'
  · rfl
  · have hnil : (fun q => n.hiddenName v unique counter (p ++ q) : Mask) [] = none := by
      show n.hiddenName v unique counter (p ++ []) = none
      rw [List.append_nil]
      exact hname
    rw [masked_of_none hnil, form_withForm, Form.disguise_mapIdx]
    by_contra hkeep
    have hhides := isSome_hiddenName n v unique counter p
    rw [hname, hidesAt_eq_true_iff.mpr ⟨hp, m, hm, hkeep⟩] at hhides
    cases hhides

/-- **Hiding has no effect on a familiar tree.** -/
theorem hide_eq_self {n : Node} (unique : Bool) (counter : Nat) (h : n.Familiar v.contains) :
    (n.hide v unique counter).tree = n ∧ (n.hide v unique counter).replaced = 0 := by
  have hunnamed : ∀ p m, n.at? p = some m → n.hiddenName v unique counter p = none := by
    intro p m hm
    by_contra hname
    rw [← Ne, ← Option.isSome_iff_ne_none, isSome_hiddenName] at hname
    obtain ⟨hp, k, hk, hkeep⟩ := hidesAt_eq_true_iff.mp hname
    exact hkeep (h p k hp hk)
  obtain ⟨htree, hpaths⟩ := masked_eq_self hunnamed
  obtain ⟨hhidden, hcount⟩ := hide_eq n v unique counter
  rw [hhidden, hcount, htree, hpaths]
  exact ⟨rfl, rfl⟩

end Hiding

/-! ## Single functions -/

theorem exists_of_isSingleFunction {n : Node} (h : n.isSingleFunction = true) :
    ∃ f, n.children = [f] ∧ f.kind = .functionDeclaration := by
  unfold isSingleFunction at h
  split at h
  next f hform =>
    refine ⟨f, ?_, beq_iff_eq.mp h⟩
    rw [children, hform]
    rfl
  next => cases h

/-- A masked tree is a single function if the tree was one and its function is still there. -/
theorem isSingleFunction_masked {n : Node} {names : Mask} (hnil : names [] = none) :
    (n.masked names).isSingleFunction = (n.isSingleFunction && (names [0]).isNone) := by
  obtain ⟨own, underlying, form⟩ := n
  rw [masked_of_none hnil]
  cases form with
  | program body =>
    rcases body with _ | ⟨f, _ | ⟨g, body⟩⟩
    · rfl
    · show ((f.masked (names.below 0)).kind == .functionDeclaration) =
        (f.kind == .functionDeclaration && _)
      cases h : names [0] with
      | some name =>
        rw [masked_of_some (show names.below 0 [] = some name from h), Option.isNone_some, Bool.and_false]
        rfl
      | none =>
        rw [kind_masked (show names.below 0 [] = none from h), Option.isNone_none, Bool.and_true]
    · simp [isSingleFunction, Form.mapIdx]
  | _ => rfl

/-- A mask that leaves the function of a single function alone leaves the least depth alone. -/
theorem defaultMinDepth_masked {n : Node} {names : Mask} (hnil : names [] = none)
    (h : n.isSingleFunction = true → names [0] = none) :
    (n.masked names).defaultMinDepth = n.defaultMinDepth := by
  rw [defaultMinDepth, defaultMinDepth, isSingleFunction_masked hnil]
  cases hn : n.isSingleFunction with
  | false => rfl
  | true => rw [h hn]; rfl

theorem defaultMinDepth_collapse (n : Node) (placeholders : PlaceholderMap) :
    (n.collapse placeholders n.defaultMinDepth).tree.defaultMinDepth = n.defaultMinDepth := by
  rw [collapse_eq]
  refine defaultMinDepth_masked rfl fun hn => ?_
  obtain ⟨f, hf, -⟩ := exists_of_isSingleFunction hn
  have hdepth : n.depthOf [0] = 0 := by
    rw [depthOf, hf]
    rfl
  by_contra hname
  obtain ⟨name, hname⟩ := Option.ne_none_iff_exists'.mp hname
  obtain ⟨-, m, -, hle, -⟩ := (collapsedName_eq_some_iff _ _).mp hname
  -- the function is not deep enough
  rw [hdepth, defaultMinDepth, if_pos hn] at hle
  omega

theorem defaultMinDepth_hide (n : Node) (v : Vocabulary) (unique : Bool) (counter : Nat) :
    (n.hide v unique counter).tree.defaultMinDepth = n.defaultMinDepth := by
  rw [(hide_eq n v unique counter).1]
  refine defaultMinDepth_masked rfl fun hn => ?_
  obtain ⟨f, hf, hkind⟩ := exists_of_isSingleFunction hn
  by_contra hname
  rw [← Ne, ← Option.isSome_iff_ne_none, isSome_hiddenName] at hname
  obtain ⟨-, m, hm, hkeep⟩ := hidesAt_eq_true_iff.mp hname
  rw [at?_singleton, hf] at hm
  cases hm
  -- a function is neither an identifier nor a literal
  rcases kind_of_disguise hkeep with h | h
  · rw [hkind] at h
    cases h
  · rw [hkind] at h
    cases h

/-! ## Prepared trees -/

/-- An identifier that is kept is known. -/
theorem known_of_disguise_identifier {known : String → Bool} {name : String}
    (h : (Form.identifier name : Form Node).disguise known = .keep) : known name = true := by
  cases hknown : known name with
  | true => rfl
  | false =>
    rw [Form.disguise, hknown] at h
    cases h

/-- A literal that is kept is known, or it is a truth value or null without the parts of a regular
expression. -/
theorem known_of_disguise_literal {known : String → Bool} {value : LiteralValue} {raw : String}
    {regex : Option Regex}
    (h : (Form.literal value raw regex : Form Node).disguise known = .keep) :
    known (literalToken raw) = true ∨
      regex = none ∧ (value = .null ∨ ∃ b, value = .bool b) := by
  cases hknown : known (literalToken raw) with
  | true => exact Or.inl rfl
  | false =>
    right
    cases regex with
    | some r => simp [Form.disguise, hknown] at h
    | none =>
      refine ⟨rfl, ?_⟩
      cases value with
      | bool b => exact Or.inr ⟨b, rfl⟩
      | null => exact Or.inl rfl
      | _ => simp [Form.disguise, hknown] at h

/-- **A tree that has been abstracted is in its closed form and stays as it is.**  Let placeholders
not be mapped themselves.  After the abstraction no mapped construct below the root lies at the least
depth of the original tree or deeper, and if there is a vocabulary it knows the name of every
identifier and the token of every literal below the root, truth values and null apart.  The least
depth is that of the original tree, and a second abstraction replaces nothing. -/
theorem prepare_closes (n : Node) (settings : AbstractionSettings) (v : Option Vocabulary)
    (hplaceholder : settings.placeholders .placeholder = none) :
    let after := (n.prepare settings v).tree
    (∀ p m name, p ≠ [] → after.at? p = some m → settings.placeholders m.kind = some name →
      after.depthOf p < n.defaultMinDepth) ∧
    (∀ w, v = some w → ∀ p m, p ≠ [] → after.at? p = some m →
      (∀ name, m.form = .identifier name → w.contains name = true) ∧
      (∀ value raw regex, m.form = .literal value raw regex →
        w.contains (literalToken raw) = true ∨
          regex = none ∧ (value = .null ∨ ∃ b, value = .bool b))) ∧
    after.defaultMinDepth = n.defaultMinDepth ∧
    after.prepare settings v = ⟨after, 0, 0⟩ := by
  intro after
  obtain ⟨hcollapsed, hfamiliar, hdepth⟩ :
      after.Collapsed settings.placeholders n.defaultMinDepth ∧
        (∀ w, v = some w → after.Familiar w.contains) ∧
        after.defaultMinDepth = n.defaultMinDepth := by
    have hfirst := collapsed_collapse n n.defaultMinDepth hplaceholder
    have hmin := defaultMinDepth_collapse n settings.placeholders
    cases v with
    | none => exact ⟨hfirst, nofun, hmin⟩
    | some w =>
      refine ⟨?_, fun w' hw' => ?_, (defaultMinDepth_hide _ w _ 0).trans hmin⟩
      · show (hide _ w settings.uniqueIdentifiers 0).tree.Collapsed _ _
        rw [(hide_eq _ w settings.uniqueIdentifiers 0).1]
        exact hfirst.masked hplaceholder rfl
      · cases hw'
        exact familiar_hide _ _ _
  refine ⟨fun p m name hp hm hname => ?_, fun w hw p m hp hm => ⟨?_, ?_⟩, hdepth, ?_⟩
  · by_contra hdeep
    rw [hcollapsed p m hp hm (Nat.not_lt.mp hdeep)] at hname
    cases hname
  · intro name hform
    have hkeep := hfamiliar w hw p m hp hm
    rw [hform] at hkeep
    exact known_of_disguise_identifier hkeep
  · intro value raw regex hform
    have hkeep := hfamiliar w hw p m hp hm
    rw [hform] at hkeep
    exact known_of_disguise_literal hkeep
  · rw [prepare.eq_def, hdepth, collapse_eq_self hcollapsed]
    cases v with
    | none => rfl
    | some w =>
      obtain ⟨htree, hreplaced⟩ := hide_eq_self settings.uniqueIdentifiers 0 (hfamiliar w rfl)
      simp only [htree, hreplaced]

/-- A function that returns another one. -/
def handlerProgram : Node :=
  let name (s : String) : Node := untagged (.identifier s)
  let inner : Node := untagged (.functionExpression none [] (untagged (.blockStatement [])))
  untagged (.program [untagged (.functionDeclaration (some (name "handler")) [name "req"]
    (untagged (.blockStatement [untagged (.returnStatement (some inner))])))])

/-- The outer function is the whole program and stays, the inner one is collapsed, and the program is
a single function afterwards as well. -/
theorem handlerProgram_prepare_closes :
    defaultPlaceholders .placeholder = none ∧ handlerProgram.defaultMinDepth = 1 ∧
      let prepared := handlerProgram.prepare ⟨defaultPlaceholders, true⟩ (some (.ofList ["req"]))
      prepared.structural = 1 ∧ prepared.tree.defaultMinDepth = 1 ∧
        prepared.tree.prepare ⟨defaultPlaceholders, true⟩ (some (.ofList ["req"])) =
          ⟨prepared.tree, 0, 0⟩ := by
  obtain ⟨-, -, hdepth, hagain⟩ := prepare_closes handlerProgram ⟨defaultPlaceholders, true⟩
    (some (.ofList ["req"])) rfl
  exact ⟨rfl, rfl, rfl, hdepth, hagain⟩

end Node

end RepairCorpus
