import RepairCorpus.Syntax.Node

/-!
# The nodes of a tree

A tree as the list of its nodes, and a tree without its tags.
-/

namespace RepairCorpus

namespace Node

/-- The nodes of a tree, each before its parts and parts in source order. -/
def nodes : Node → List Node :=
  fold fun own underlying form =>
    ⟨own, underlying, form.map Prod.fst⟩ :: (form.children.map Prod.snd).flatten

theorem nodes_mk (own underlying : Tag) (form : Form Node) :
    nodes ⟨own, underlying, form⟩ = ⟨own, underlying, form⟩ :: form.children.flatMap nodes := by
  have hform : (form.map fun n => (n, nodes n)).map Prod.fst = form := by
    rw [Form.map_map]
    exact Form.map_id form
  rw [nodes, fold_mk, ← nodes, hform, Form.children_map, List.map_map, List.flatMap_def]
  rfl

theorem nodes_eq_cons (n : Node) : n.nodes = n :: n.children.flatMap nodes := by
  obtain ⟨own, underlying, form⟩ := n
  exact nodes_mk own underlying form

/-- As many nodes are listed as there are. -/
theorem length_nodes (n : Node) : n.nodes.length = n.size := by
  induction n using Node.induction with
  | step own underlying form ih =>
    rw [nodes_mk, size_mk, List.length_cons, List.length_flatMap, Nat.add_comm,
      List.map_congr_left ih]
    rfl

/-- A tree without its tags. -/
def untag : Node → Node := fold fun _ _ form => untagged (form.map Prod.snd)

theorem untag_mk (own underlying : Tag) (form : Form Node) :
    untag ⟨own, underlying, form⟩ = untagged (form.map untag) := by
  rw [untag, fold_mk, ← untag, Form.map_map]
  rfl

end Node

end RepairCorpus
