import RepairCorpus.Proofs.Sequence.Pieces
import RepairCorpus.Proofs.Syntax.Nodes

/-!
# Boundary tokens

A sequence shows a change by boundary tokens around the tokens of a node.  This file says that
they are all there is to see of the tags: without them the sequence is that of the same tree
without tags, and they alone tell how many nodes carry each visible tag and how these lie inside
one another.

A text of the tree may happen to be a boundary token, an identifier called `~INSERTED_START~` for
instance.  No statement about boundary tokens can hold then, so the statements here are about trees
in which no text is one.  That the words of the language are none is `plain_of_mem_language`.

How boundary tokens lie is said by reading a sequence with a stack: `Tag.read` opens a tag at its
start and closes the innermost open tag at its end, and refuses any other end.  A run of tokens is
`Transparent` when reading it succeeds on every stack and leaves it as it was.  This is the
invariant that goes through productions: it holds of a run without boundary tokens, of one run
after another, and of a run enclosed in the boundary tokens of a tag.

* `Node.ownTokens_untag`: deleting the boundary tokens.
* `Node.transparent_ownTokens`: the boundary tokens nest.
* `Node.count_ownTokens`: as many starts as nodes.
* `Node.sequence_marks_tags`: the three for whole sequences, the root included.
-/

namespace RepairCorpus

/-! ## Boundary tokens and how they are read -/

namespace Tag

/-- The tags that are made visible. -/
def visible : List Tag := all.filter isWrapped

theorem mem_visible {t : Tag} : t ∈ visible ↔ t.isWrapped = true := by
  rw [visible, List.mem_filter]
  exact and_iff_right (mem_all t)

/-- The six boundary tokens. -/
def markers : List Token := visible.flatMap fun t => [t.startMarker, t.endMarker]

/-- The tag that a token opens, if it is a start. -/
def opens? (token : Token) : Option Tag := visible.find? fun t => t.startMarker == token

/-- The tag that a token closes, if it is an end. -/
def closes? (token : Token) : Option Tag := visible.find? fun t => t.endMarker == token

/-- Reads a token with the tags that are open, the innermost first.  A start opens its tag, and an
end closes the innermost open tag, which has to be its own; other tokens change nothing. -/
def read (stack : List Tag) (token : Token) : Option (List Tag) :=
  match opens? token with
  | some t => some (t :: stack)
  | none =>
    match closes? token with
    | none => some stack
    | some t => if stack.head? = some t then some stack.tail else none

theorem startMarker_mem_markers {t : Tag} (h : t.isWrapped = true) : t.startMarker ∈ markers :=
  List.mem_flatMap.mpr ⟨t, mem_visible.mpr h, List.mem_cons_self⟩

theorem endMarker_mem_markers {t : Tag} (h : t.isWrapped = true) : t.endMarker ∈ markers :=
  List.mem_flatMap.mpr ⟨t, mem_visible.mpr h, List.mem_cons_of_mem _ List.mem_cons_self⟩

theorem read_startMarker {t : Tag} (h : t.isWrapped = true) (stack : List Tag) :
    read stack t.startMarker = some (t :: stack) := by
  have hopens : ∀ t ∈ visible, opens? t.startMarker = some t := by decide
  rw [read, hopens t (mem_visible.mpr h)]

theorem read_endMarker {t : Tag} (h : t.isWrapped = true) (stack : List Tag) :
    read (t :: stack) t.endMarker = some stack := by
  have hends : ∀ t ∈ visible, opens? t.endMarker = none ∧ closes? t.endMarker = some t := by decide
  obtain ⟨hopens, hcloses⟩ := hends t (mem_visible.mpr h)
  rw [read, hopens, hcloses]
  exact if_pos rfl

theorem read_of_notMem_markers {token : Token} (h : token ∉ markers) (stack : List Tag) :
    read stack token = some stack := by
  have hopens : opens? token = none := by
    refine List.find?_eq_none.mpr fun t ht heq => h ?_
    rw [← beq_iff_eq.mp heq]
    exact startMarker_mem_markers (mem_visible.mp ht)
  have hcloses : closes? token = none := by
    refine List.find?_eq_none.mpr fun t ht heq => h ?_
    rw [← beq_iff_eq.mp heq]
    exact endMarker_mem_markers (mem_visible.mp ht)
  rw [read, hopens, hcloses]

/-- The start of one tag is neither the start of another nor any end. -/
theorem startMarker_eq_iff {t u : Tag} (ht : t.isWrapped = true) (hu : u.isWrapped = true) :
    (t.startMarker = u.startMarker ↔ t = u) ∧ t.endMarker ≠ u.startMarker := by
  have h : ∀ t ∈ visible, ∀ u ∈ visible,
      (t.startMarker = u.startMarker ↔ t = u) ∧ t.endMarker ≠ u.startMarker := by decide
  exact h t (mem_visible.mpr ht) u (mem_visible.mpr hu)

end Tag

/-- No word of the language is a boundary token. -/
theorem plain_of_mem_language : ∀ t ∈ language, t ∉ Tag.markers := by decide

/-! ## Runs of tokens -/

/-- A run of tokens without its boundary tokens. -/
def unmarked (ts : List Token) : List Token := ts.filter fun t => t ∉ Tag.markers

/-- Whether the boundary tokens of a run are properly nested brackets, each end matching a start
of the same tag. -/
def Nested (ts : List Token) : Prop := ts.foldlM Tag.read [] = some []

/-- Whether reading a run leaves every stack as it was. -/
def Transparent (ts : List Token) : Prop := ∀ stack, ts.foldlM Tag.read stack = some stack

theorem unmarked_append (ts us : List Token) : unmarked (ts ++ us) = unmarked ts ++ unmarked us :=
  List.filter_append ..

theorem unmarked_cons_of_notMem {t : Token} (h : t ∉ Tag.markers) (ts : List Token) :
    unmarked (t :: ts) = t :: unmarked ts :=
  List.filter_cons_of_pos (decide_eq_true h)

theorem unmarked_cons_of_mem {t : Token} (h : t ∈ Tag.markers) (ts : List Token) :
    unmarked (t :: ts) = unmarked ts :=
  List.filter_cons_of_neg (by simpa using h)

namespace Transparent

theorem nil : Transparent [] := fun _ => rfl

theorem cons {t : Token} (h : t ∉ Tag.markers) {ts : List Token} (hts : Transparent ts) :
    Transparent (t :: ts) := by
  intro stack
  rw [List.foldlM_cons, Tag.read_of_notMem_markers h]
  exact hts stack

theorem append {ts us : List Token} (hts : Transparent ts) (hus : Transparent us) :
    Transparent (ts ++ us) := by
  intro stack
  rw [List.foldlM_append, hts stack]
  exact hus stack

end Transparent

namespace Tag

/-- Enclosing a run shows the tag and nothing else. -/
theorem unmarked_wrap (t : Tag) (ts : List Token) : unmarked (t.wrap ts) = unmarked ts := by
  unfold wrap
  split
  next h =>
    rw [unmarked_append, unmarked_cons_of_mem (startMarker_mem_markers h),
      unmarked_cons_of_mem (endMarker_mem_markers h)]
    exact List.append_nil _
  · rfl

theorem transparent_wrap (t : Tag) {ts : List Token} (hts : Transparent ts) :
    Transparent (t.wrap ts) := by
  unfold wrap
  split
  next h =>
    intro stack
    rw [List.cons_append, List.foldlM_cons, read_startMarker h]
    show (ts ++ [t.endMarker]).foldlM read (t :: stack) = some stack
    rw [List.foldlM_append, hts (t :: stack)]
    show [t.endMarker].foldlM read (t :: stack) = some stack
    rw [List.foldlM_cons, read_endMarker h]
    rfl
  · exact hts

theorem count_wrap {u : Tag} (hu : u.isWrapped = true) (t : Tag) (ts : List Token) :
    (t.wrap ts).count u.startMarker = [t].count u + ts.count u.startMarker := by
  unfold wrap
  split
  next h =>
    obtain ⟨hstart, hend⟩ := startMarker_eq_iff h hu
    rw [List.cons_append, List.count_cons, List.count_append, List.count_singleton,
      List.count_singleton]
    simp only [beq_iff_eq, hstart, if_neg hend]
    omega
  next h =>
    have hne : t ≠ u := fun heq => h (heq ▸ hu)
    rw [List.count_singleton, if_neg (by simpa using hne), Nat.zero_add]

end Tag

/-! ## Through the pieces of a production -/

namespace Piece

variable {ps : List (Piece Node)}

/-- Deleting boundary tokens goes through pieces that are no boundary tokens themselves. -/
theorem run_map_untag (hfixed : ∀ t ∈ fixed ps, t ∉ Tag.markers)
    (hparts : ∀ c ∈ parts ps, ∀ position,
      c.untag.tokens position = (c.tokens position).map unmarked) :
    run (ps.map (Piece.map Node.untag)) = (run ps).map unmarked := by
  induction ps with
  | nil => rfl
  | cons p ps ih =>
    cases p with
    | token t =>
      have hps := ih (fun u hu => hfixed u (List.mem_cons_of_mem _ hu)) hparts
      have ht : t ∉ Tag.markers := hfixed t List.mem_cons_self
      show (run (ps.map (Piece.map Node.untag))).map (t :: ·) = ((run ps).map (t :: ·)).map unmarked
      rw [hps]
      cases run ps with
      | error e => rfl
      | ok us => exact congrArg Except.ok (unmarked_cons_of_notMem ht us).symm
    | part position n =>
      have hps := ih hfixed fun c hc => hparts c (List.mem_cons_of_mem _ hc)
      have hn := hparts n List.mem_cons_self position
      show ((n.untag.tokens position).bind fun ts =>
          (run (ps.map (Piece.map Node.untag))).map (ts ++ ·))
        = (run (.part position n :: ps)).map unmarked
      rw [run_part_cons, hps, hn]
      cases n.tokens position with
      | error e => rfl
      | ok us =>
        cases run ps with
        | error e => rfl
        | ok vs => exact congrArg Except.ok (unmarked_append us vs).symm

theorem transparent_run {ts : List Token} (h : run ps = .ok ts)
    (hfixed : ∀ t ∈ fixed ps, t ∉ Tag.markers)
    (hparts : ∀ c ∈ parts ps, ∀ position us, c.tokens position = .ok us → Transparent us) :
    Transparent ts := by
  induction ps generalizing ts with
  | nil => cases h; exact Transparent.nil
  | cons p ps ih =>
    cases p with
    | token t =>
      obtain ⟨us, hus, rfl⟩ := run_token_cons_eq_ok_iff.mp h
      have hrest := ih hus (fun u hu => hfixed u (List.mem_cons_of_mem _ hu)) hparts
      exact hrest.cons (hfixed t List.mem_cons_self)
    | part position n =>
      obtain ⟨us, vs, hus, hvs, rfl⟩ := run_part_cons_eq_ok_iff.mp h
      have hrest := ih hvs hfixed fun c hc => hparts c (List.mem_cons_of_mem _ hc)
      exact (hparts n List.mem_cons_self position us hus).append hrest

theorem count_run {ts : List Token} {u : Tag} (hu : u.isWrapped = true) (h : run ps = .ok ts)
    (hfixed : ∀ t ∈ fixed ps, t ∉ Tag.markers)
    (hparts : ∀ c ∈ parts ps, ∀ position us, c.tokens position = .ok us →
      us.count u.startMarker = (c.nodes.map Node.own).count u) :
    ts.count u.startMarker = (((parts ps).flatMap Node.nodes).map Node.own).count u := by
  induction ps generalizing ts with
  | nil => cases h; rfl
  | cons p ps ih =>
    cases p with
    | token t =>
      obtain ⟨us, hus, rfl⟩ := run_token_cons_eq_ok_iff.mp h
      have hne : t ≠ u.startMarker := fun heq =>
        hfixed t List.mem_cons_self (heq ▸ Tag.startMarker_mem_markers hu)
      rw [List.count_cons_of_ne hne, parts_token_cons]
      exact ih hus (fun u hu => hfixed u (List.mem_cons_of_mem _ hu)) hparts
    | part position n =>
      obtain ⟨us, vs, hus, hvs, rfl⟩ := run_part_cons_eq_ok_iff.mp h
      have hrest := ih hvs hfixed fun c hc => hparts c (List.mem_cons_of_mem _ hc)
      have hn := hparts n List.mem_cons_self position us hus
      rw [List.count_append, parts_part_cons, List.flatMap_cons, List.map_append,
        List.count_append, hn, hrest]

end Piece

/-! ## Through a tree -/

namespace Node

/-- Whether no text of a tree is a boundary token. -/
def Plain (n : Node) : Prop := ∀ m ∈ n.nodes, ∀ t ∈ m.form.texts, t ∉ Tag.markers

theorem Plain.of_mem_children {n c : Node} (h : n.Plain) (hc : c ∈ n.children) : c.Plain := by
  intro m hm
  refine h m ?_
  rw [nodes_eq_cons]
  exact List.mem_cons_of_mem _ (List.mem_flatMap.mpr ⟨c, hc, hm⟩)

/-- Then no production adds a boundary token. -/
theorem Plain.fixed {n : Node} (h : n.Plain) {position : Position} {ps : List (Piece Node)}
    (hps : n.form.production position = .ok ps) : ∀ t ∈ Piece.fixed ps, t ∉ Tag.markers := by
  intro t ht
  rcases Form.mem_fixed_production hps t ht with hword | htext
  · exact plain_of_mem_language t hword
  · have hself : n ∈ n.nodes := by
      rw [nodes_eq_cons]
      exact List.mem_cons_self
    exact h n hself t htext

/-- Showing the tag of a node does not show without boundary tokens. -/
theorem map_unmarked_tokens (n : Node) (position : Position) :
    (n.tokens position).map unmarked = (n.ownTokens position).map unmarked := by
  rw [tokens]
  cases n.ownTokens position with
  | error e => rfl
  | ok us => exact congrArg Except.ok (Tag.unmarked_wrap n.own us)

theorem own_untag (n : Node) : n.untag.own = .unknown := by
  obtain ⟨own, underlying, form⟩ := n
  rw [untag_mk]
  rfl

theorem tokens_untag_eq_ownTokens (n : Node) (position : Position) :
    n.untag.tokens position = n.untag.ownTokens position := by
  rw [tokens, own_untag]
  cases n.untag.ownTokens position <;> rfl

theorem sequence_untag_eq_ownTokens (n : Node) :
    n.untag.sequence = n.untag.ownTokens .statement := by
  have hroot : n.untag.rootTag = .unknown := by
    rw [rootTag, own_untag, if_neg fun h => Tag.noConfusion h.2]
  rw [sequence, hroot]
  cases n.untag.ownTokens .statement <;> rfl

/-- A tree without tags is written like the tree, less the boundary tokens; where one cannot be
written, neither can the other, and for the same reason. -/
theorem ownTokens_untag (n : Node) (h : n.Plain) (position : Position) :
    n.untag.ownTokens position = (n.ownTokens position).map unmarked := by
  induction n using Node.induction generalizing position with
  | step own underlying form ih =>
    rw [untag_mk, ownTokens_eq, ownTokens_eq]
    show ((form.map untag).production position).bind Piece.run
      = ((form.production position).bind Piece.run).map unmarked
    rw [Form.production_map]
    cases hps : form.production position with
    | error e => rfl
    | ok ps =>
      refine Piece.run_map_untag (h.fixed hps) fun c hc position => ?_
      rw [Form.children_production hps] at hc
      rw [tokens_untag_eq_ownTokens, map_unmarked_tokens]
      exact ih c hc (h.of_mem_children hc) position

/-- Reading the tokens of a node leaves every stack as it was. -/
theorem transparent_ownTokens (n : Node) (h : n.Plain) {position : Position} {ts : List Token}
    (hts : n.ownTokens position = .ok ts) : Transparent ts := by
  induction n using Node.induction generalizing position ts with
  | step own underlying form ih =>
    obtain ⟨ps, hps, hrun⟩ := ownTokens_eq_ok_iff.mp hts
    refine Piece.transparent_run hrun (h.fixed hps) fun c hc position us hus => ?_
    obtain ⟨vs, hvs, rfl⟩ := tokens_eq_ok_iff.mp hus
    rw [Form.children_production hps] at hc
    exact Tag.transparent_wrap c.own (ih c hc (h.of_mem_children hc) hvs)

/-- Within the tokens of a node, as many starts of a visible tag as nodes below with that tag. -/
theorem count_ownTokens (n : Node) (h : n.Plain) {position : Position} {ts : List Token} {u : Tag}
    (hu : u.isWrapped = true) (hts : n.ownTokens position = .ok ts) :
    ts.count u.startMarker = ((n.children.flatMap nodes).map Node.own).count u := by
  induction n using Node.induction generalizing position ts with
  | step own underlying form ih =>
    obtain ⟨ps, hps, hrun⟩ := ownTokens_eq_ok_iff.mp hts
    have hparts : Piece.parts ps = form.children := Form.children_production hps
    show ts.count u.startMarker = ((form.children.flatMap nodes).map Node.own).count u
    rw [← hparts]
    refine Piece.count_run hu hrun (h.fixed hps) fun c hc position us hus => ?_
    obtain ⟨vs, hvs, rfl⟩ := tokens_eq_ok_iff.mp hus
    rw [hparts] at hc
    rw [Tag.count_wrap hu, ih c hc (h.of_mem_children hc) hvs, nodes_eq_cons c, List.map_cons,
      ← List.count_append, List.singleton_append]

/-! ## Whole sequences -/

/-- The tags with which the nodes of a tree count in its sequence: each node's own, but for a
function declaration at the root that inherited its tag, which counts with the tag it inherited. -/
def effectiveTags (n : Node) : List Tag :=
  (if n.kind = .functionDeclaration ∧ n.own = .inherited then n.underlying else n.own)
    :: (n.children.flatMap nodes).map Node.own

/-- **What the tags of a tree show in its sequence.**  Let no text of the tree be a boundary token.
Without any tags the tree can be written exactly when it can be with them, and otherwise the error
is the same.  Deleting the boundary tokens from its sequence gives the sequence it has without
tags; the boundary tokens are properly nested brackets, each end matching a start of the same tag;
and each visible tag has as many starts as there are nodes with that tag. -/
theorem sequence_marks_tags (n : Node)
    (plain : ∀ m ∈ n.nodes, ∀ t ∈ m.form.texts, t ∉ Tag.markers) :
    (∀ e, n.sequence = .error e ↔ n.untag.sequence = .error e) ∧
    ∀ ts, n.sequence = .ok ts →
      n.untag.sequence = .ok (unmarked ts) ∧ Nested ts ∧
      ∀ t : Tag, t.isWrapped = true → ts.count t.startMarker = n.effectiveTags.count t := by
  have huntag : n.untag.sequence = n.sequence.map unmarked := by
    rw [sequence_untag_eq_ownTokens, ownTokens_untag n plain, sequence]
    cases n.ownTokens .statement with
    | error e => rfl
    | ok us => exact congrArg Except.ok (Tag.unmarked_wrap n.rootTag us).symm
  refine ⟨fun e => ?_, fun ts hts => ?_⟩
  · rw [huntag, Except.map_eq_error_iff]
  · obtain ⟨us, hus, rfl⟩ := sequence_eq_ok_iff.mp hts
    refine ⟨?_, ?_, fun t ht => ?_⟩
    · rw [huntag, hts]
      rfl
    · exact Tag.transparent_wrap n.rootTag (transparent_ownTokens n plain hus) []
    · rw [Tag.count_wrap ht, count_ownTokens n plain ht hus, ← List.count_append,
        List.singleton_append]
      rfl

/-- A function that was changed as a whole: its parameter is new, and of its two statements one is
removed with a call in it that is tagged as inserted. -/
def changedFunction : Node :=
  let name (s : String) : Node := untagged (.identifier s)
  let call : Node := ⟨.inserted, .unknown,
    .callExpression (name "g") [name "x", ⟨.moved, .unknown, .identifier "y"⟩]⟩
  let body : Node := untagged (.blockStatement
    [⟨.removed, .unknown, .expressionStatement call⟩, untagged .emptyStatement])
  ⟨.inherited, .updated, .functionDeclaration (some (name "f"))
    [⟨.inserted, .unknown, .identifier "x"⟩] body⟩

/-- The sequence of that function, and what it shows: two nodes inserted, one removed, and the root
updated although its own tag is another. -/
theorem changedFunction_marks_tags : ∃ ts, changedFunction.sequence = .ok ts ∧
    changedFunction.untag.sequence = .ok (unmarked ts) ∧ Nested ts ∧
    ts.count Tag.inserted.startMarker = 2 ∧ ts.count Tag.removed.startMarker = 1 ∧
    ts.count Tag.updated.startMarker = 1 := by
  obtain ⟨-, h⟩ := sequence_marks_tags changedFunction (by decide)
  obtain ⟨huntag, hnested, hcount⟩ := h _ rfl
  exact ⟨_, rfl, huntag, hnested, hcount .inserted rfl, hcount .removed rfl, hcount .updated rfl⟩

end Node

end RepairCorpus
