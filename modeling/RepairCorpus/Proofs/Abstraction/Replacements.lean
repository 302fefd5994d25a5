import RepairCorpus.Proofs.Abstraction.HiddenWords

/-!
# Replaced and kept nodes

What an abstraction does to a single node is said with the trees before and after it.  A node is
*replaced* if a placeholder with its tags stands in its place, and *kept* if its place holds the
same construct with the same tags, whatever became of the parts.  A node cannot be both
(`Node.Kept.not_replaced`): a placeholder that has been in the tree before is kept.

A mask replaces the nodes at the outermost of its paths (`Node.replaced_masked`) and keeps those
that neither lie at one of its paths nor below one (`Node.kept_masked`).  For hiding the two cases
are all there is, since nothing lies below a hidden node: `Node.replaced_hide_iff` and
`Node.kept_hide_iff`.
-/

namespace RepairCorpus

/-- A construct without its parts: which of them are present is still to be seen. -/
def Form.shell {α : Type} (form : Form α) : Form Unit := form.map fun _ => ()

theorem Form.shell_mapIdx {α β : Type} (f : Nat → α → β) (form : Form α) :
    (form.mapIdx f).shell = form.shell := by
  unfold shell Form.map
  rw [Form.mapIdx_mapIdx]

theorem Form.kind_shell {α : Type} (form : Form α) : form.shell.kind = form.kind :=
  Form.kind_map _ form

namespace Node

/-- At a path the tree after has a placeholder, with the tags of the node that the tree before has
there, which is none. -/
def Replaced (before after : Node) (p : Path) : Prop :=
  ∃ m name, before.at? p = some m ∧ m.kind ≠ .placeholder ∧
    after.at? p = some (m.asPlaceholder name)

/-- At a path the two trees have the same construct with the same tags, up to the parts. -/
def Kept (before after : Node) (p : Path) : Prop :=
  ∃ m m', before.at? p = some m ∧ after.at? p = some m' ∧ m'.own = m.own ∧
    m'.underlying = m.underlying ∧ m'.form.shell = m.form.shell

theorem Kept.not_replaced {before after : Node} {p : Path} (h : Kept before after p) :
    ¬ Replaced before after p := by
  rintro ⟨m, name, hm, hkind, hplaceholder⟩
  obtain ⟨k, k', hk, hk', -, -, hshell⟩ := h
  cases hm.symm.trans hk
  cases hplaceholder.symm.trans hk'
  apply hkind
  have hkinds := congrArg Form.kind hshell
  rw [Form.kind_shell, Form.kind_shell] at hkinds
  exact hkinds.symm

/-! ## Masks -/

theorem replaced_masked {n m : Node} {names : Mask} {p : Path}
    (hp : p ∈ n.maskedPaths names) (hm : n.at? p = some m) (hkind : m.kind ≠ .placeholder) :
    Replaced n (n.masked names) p := by
  obtain ⟨-, ⟨name, hname⟩, -⟩ := mem_maskedPaths.mp hp
  exact ⟨m, name, hm, hkind, at?_masked hp hm hname⟩

/-- Where no name has been met on the way, the masked tree goes on with the masked subtree. -/
theorem at?_masked_of_unnamed {n m : Node} {names : Mask} {p : Path} (hm : n.at? p = some m)
    (h : ∀ q, q <+: p → names q = none) :
    (n.masked names).at? p = some (m.masked fun q => names (p ++ q)) := by
  induction p generalizing n names with
  | nil =>
    rw [at?_nil] at hm ⊢
    cases hm
    rfl
  | cons i p ih =>
    rw [at?_cons] at hm
    obtain ⟨c, hc, hcm⟩ := Option.bind_eq_some_iff.mp hm
    have hbelow : ∀ q, q <+: p → names.below i q = none := by
      intro q hq
      exact h (i :: q) ((List.prefix_cons_inj i).mpr hq)
    rw [masked_of_none (h [] List.nil_prefix), at?_cons, children_withForm, Form.children_mapIdx,
      List.getElem?_mapIdx, show n.form.children[i]? = some c from hc]
    exact ih hcm hbelow

theorem kept_masked {n m : Node} {names : Mask} {p : Path} (hm : n.at? p = some m)
    (h : ∀ q, q <+: p → names q = none) : Kept n (n.masked names) p := by
  have hself : (fun q => names (p ++ q) : Mask) [] = none := by
    show names (p ++ []) = none
    rw [List.append_nil]
    exact h p (List.prefix_refl p)
  refine ⟨m, _, hm, at?_masked_of_unnamed hm h, own_masked m _, ?_, ?_⟩
  · rw [masked_of_none hself]
    rfl
  · rw [masked_of_none hself, form_withForm, Form.shell_mapIdx]

/-! ## Hiding -/

/-- What is hidden is an identifier or a literal. -/
theorem kind_of_disguise {m : Node} {known : String → Bool} (h : m.form.disguise known ≠ .keep) :
    m.kind = .identifier ∨ m.kind = .literal := by
  obtain ⟨own, underlying, form⟩ := m
  cases form with
  | identifier name => exact Or.inl rfl
  | literal value raw regex => exact Or.inr rfl
  | _ => exact absurd rfl h

section Hiding

variable (n : Node) (v : Vocabulary) (unique : Bool) (counter : Nat) (p : Path)

theorem replaced_hide (h : n.hidesAt v.contains p = true) :
    Replaced n (n.hide v unique counter).tree p := by
  obtain ⟨-, m, hm, hkeep⟩ := hidesAt_eq_true_iff.mp h
  have hkind : m.kind ≠ .placeholder := by
    rcases kind_of_disguise hkeep with hk | hk <;> rw [hk] <;> decide
  rw [(hide_eq n v unique counter).1]
  exact replaced_masked ((mem_maskedPaths_hiddenName v unique counter).mpr h) hm hkind

theorem kept_hide {m : Node} (hm : n.at? p = some m) (h : n.hidesAt v.contains p = false) :
    Kept n (n.hide v unique counter).tree p := by
  rw [(hide_eq n v unique counter).1]
  refine kept_masked hm fun q hq => ?_
  by_contra hname
  have hhides : n.hidesAt v.contains q = true := by
    rw [← isSome_hiddenName n v unique counter q]
    exact Option.isSome_iff_ne_none.mpr hname
  -- a hidden node on the way would be the end of the way
  rw [eq_of_prefix_of_hidesAt hhides hm hq, h] at hhides
  exact Bool.false_ne_true hhides

/-- **Hiding replaces the nodes it is to hide and no other.** -/
theorem replaced_hide_iff :
    Replaced n (n.hide v unique counter).tree p ↔ n.hidesAt v.contains p = true := by
  refine ⟨fun h => ?_, replaced_hide n v unique counter p⟩
  obtain ⟨m, -, hm, -⟩ := id h
  by_contra hhides
  exact (kept_hide n v unique counter p hm (Bool.eq_false_iff.mpr hhides)).not_replaced h

theorem kept_hide_iff {m : Node} (hm : n.at? p = some m) :
    Kept n (n.hide v unique counter).tree p ↔ n.hidesAt v.contains p = false := by
  refine ⟨fun h => ?_, kept_hide n v unique counter p hm⟩
  rw [← Bool.not_eq_true, ← replaced_hide_iff n v unique counter p]
  exact h.not_replaced

end Hiding

end Node

end RepairCorpus
