import RepairCorpus.Proofs.Sequence.Origins
import RepairCorpus.Proofs.Syntax.Places

/-!
# What stands around a node

The tokens of a node are one run in the sequence of its tree, and what stands before and behind that
run has nothing to do with the node.  So there is one way to say both: for a place of a tree there are
tokens `pre` and `post` such that, whatever node is put there, the tree is written `pre`, then the
tokens of that node, then `post`.

Which tokens these are is said with their origins: none of `pre` and `post` comes from the place or
from below it (`Outside`).  So what stands between the boundary tokens of a node are the node's own
tokens, and none of a sibling's.  The position in which a node is written is that of the place, given by
the productions of the nodes above (`Node.positionAt`), and a node that is put there is written in it as
well.

* `Node.tracedSequence_setAt`: the tokens around a place, with their origins.
* `Node.sequence_setAt`, `Node.sequence_setAt_withForm`: the same without origins.
* `Node.sequence_is_compositional`: **a subtree can be exchanged in the sequence**.
-/

namespace RepairCorpus

/-! ## Tokens from elsewhere -/

/-- Whether no token of a list comes from the node at the end of a path or from below it. -/
def Outside (p : Path) (ss : List Traced) : Prop := ∀ s ∈ ss, ¬ p <+: s.path

namespace Outside

theorem append {p : Path} {ss us : List Traced} (hss : Outside p ss) (hus : Outside p us) :
    Outside p (ss ++ us) := by
  intro s hs
  exact (List.mem_append.mp hs).elim (hss s) (hus s)

/-- What does not come from a part does not come from below it. -/
theorem below {i : Nat} {ss : List Traced} (h : Outside [i] ss) (p : Path) :
    Outside (i :: p) ss := by
  intro s hs hpath
  exact h s hs ((List.prefix_append [i] p).trans hpath)

theorem under {p : Path} {ss : List Traced} (h : Outside p ss) (i : Nat) :
    Outside (i :: p) (ss.map (Traced.under [i])) := by
  intro s hs hpath
  obtain ⟨u, hu, rfl⟩ := List.mem_map.mp hs
  exact h u hu ((List.prefix_cons_inj i).mp hpath)

/-- Boundary tokens come from the node itself. -/
theorem boundary {p : Path} (hp : p ≠ []) (t : Token) : Outside p [⟨t, [], true⟩] := by
  intro s hs hpath
  rw [List.mem_singleton.mp hs] at hpath
  exact hp (List.prefix_nil.mp hpath)

end Outside

/-! ## Tokens around a part -/

namespace Piece

/-- Labelled pieces are written one list after the other. -/
theorem runTraced_append (ps qs : List (Piece (Nat × Node))) :
    runTraced (ps ++ qs) = (runTraced ps).bind fun ts => (runTraced qs).map (ts ++ ·) := by
  induction ps with
  | nil =>
    show runTraced qs = (runTraced qs).map ([] ++ ·)
    cases runTraced qs <;> rfl
  | cons p ps ih =>
    cases p with
    | token t =>
      rw [List.cons_append, runTraced_token_cons, runTraced_token_cons, ih]
      cases runTraced ps with
      | error e => rfl
      | ok ts => cases runTraced qs <;> rfl
    | part position p =>
      obtain ⟨i, n⟩ := p
      rw [List.cons_append, runTraced_part_cons, runTraced_part_cons, ih]
      cases n.trace position with
      | error e => rfl
      | ok us =>
        cases runTraced ps with
        | error e => rfl
        | ok ts =>
          cases runTraced qs with
          | error e => rfl
          | ok vs => exact congrArg Except.ok (List.append_assoc (us.map (Traced.under [i])) ts vs).symm

/-- What some pieces of a node write does not come from a part that is not among them. -/
theorem outside_runTraced {ps : List (Piece (Nat × Node))} {ss : List Traced} {i : Nat}
    (h : runTraced ps = .ok ss) (hparts : ∀ p ∈ parts ps, p.1 ≠ i) : Outside [i] ss := by
  induction ps generalizing ss with
  | nil =>
    cases h
    exact fun s hs => absurd hs List.not_mem_nil
  | cons p ps ih =>
    cases p with
    | token t =>
      obtain ⟨us, hus, rfl⟩ := runTraced_token_cons_eq_ok_iff.mp h
      intro s hs
      rcases List.mem_cons.mp hs with rfl | hs
      · intro hpath
        exact absurd (List.prefix_nil.mp hpath) (List.cons_ne_nil i [])
      · exact ih hus hparts s hs
    | part position p =>
      obtain ⟨j, n⟩ := p
      obtain ⟨us, vs, -, hvs, rfl⟩ := runTraced_part_cons_eq_ok_iff.mp h
      rw [parts_part_cons] at hparts
      refine Outside.append ?_ (ih hvs fun p hp => hparts p (List.mem_cons_of_mem _ hp))
      intro s hs hpath
      obtain ⟨u, -, rfl⟩ := List.mem_map.mp hs
      exact hparts (j, n) List.mem_cons_self (List.cons_prefix_cons.mp hpath).1.symm

/-- What is written before and behind a part does not depend on the part and does not come from
it. -/
theorem runTraced_around {before after : List (Piece (Nat × Node))} {q : Position} {i : Nat}
    {c : Node} {ss : List Traced} (h : runTraced (before ++ .part q (i, c) :: after) = .ok ss)
    (hbefore : ∀ p ∈ parts before, p.1 ≠ i) (hafter : ∀ p ∈ parts after, p.1 ≠ i) :
    (∃ us, c.trace q = .ok us) ∧ ∃ pre post, Outside [i] pre ∧ Outside [i] post ∧ ∀ x : Node,
      runTraced (before ++ .part q (i, x) :: after)
        = (x.trace q).map fun us => pre ++ us.map (Traced.under [i]) ++ post := by
  rw [runTraced_append, Except.bind_eq_ok_iff] at h
  obtain ⟨pre, hpre, h⟩ := h
  obtain ⟨rest, hrest, -⟩ := Except.map_eq_ok_iff.mp h
  obtain ⟨us, post, hus, hpost, -⟩ := runTraced_part_cons_eq_ok_iff.mp hrest
  refine ⟨⟨us, hus⟩, pre, post, outside_runTraced hpre hbefore, outside_runTraced hpost hafter,
    fun x => ?_⟩
  rw [runTraced_append, hpre, runTraced_part_cons, hpost]
  cases x.trace q with
  | error e => rfl
  | ok vs => exact congrArg Except.ok (List.append_assoc pre _ post).symm

end Piece

namespace Tag

/-- The boundary token in front of a node with this tag, if there is one. -/
def opening (t : Tag) : List Token := if t.isWrapped then [t.startMarker] else []

/-- The boundary token behind a node with this tag, if there is one. -/
def closing (t : Tag) : List Token := if t.isWrapped then [t.endMarker] else []

theorem wrap_eq (t : Tag) (ts : List Token) : t.wrap ts = t.opening ++ ts ++ t.closing := by
  unfold wrap opening closing
  split
  · rfl
  · exact (List.append_nil ts).symm

/-- The labelled boundary token in front of a node with this tag, if there is one. -/
def opened (t : Tag) : List Traced := if t.isWrapped then [⟨t.startMarker, [], true⟩] else []

/-- The labelled boundary token behind a node with this tag, if there is one. -/
def closed (t : Tag) : List Traced := if t.isWrapped then [⟨t.endMarker, [], true⟩] else []

theorem enclose_eq (t : Tag) (ss : List Traced) : t.enclose ss = t.opened ++ ss ++ t.closed := by
  unfold enclose opened closed
  split
  · rfl
  · exact (List.append_nil ss).symm

theorem outside_opened {p : Path} (hp : p ≠ []) (t : Tag) : Outside p t.opened := by
  unfold opened
  split
  · exact Outside.boundary hp _
  · exact fun s hs => absurd hs List.not_mem_nil

theorem outside_closed {p : Path} (hp : p ≠ []) (t : Tag) : Outside p t.closed := by
  unfold closed
  split
  · exact Outside.boundary hp _
  · exact fun s hs => absurd hs List.not_mem_nil

end Tag

/-! ## Tokens around a node -/

namespace Node

/-- The position of the place at the end of a path, when the tree stands in a position: that in which
the production of the node above writes what stands there. -/
def positionAt : Node → Position → Path → Option Position
  | _, position, [] => some position
  | n, position, i :: p => (n.form.placements position)[i]?.bind fun c => c.2.positionAt c.1 p

theorem positionAt_cons {n c : Node} {position q : Position} {i : Nat}
    (h : (n.form.placements position)[i]? = some (q, c)) (p : Path) :
    n.positionAt position (i :: p) = c.positionAt q p := by
  rw [positionAt, h]
  rfl

/-- What a node writes around one of its parts does not depend on the part. -/
theorem ownTrace_setChild {n c : Node} {position : Position} {ss : List Traced} {i : Nat}
    (h : n.ownTrace position = .ok ss) (hc : n.children[i]? = some c) :
    ∃ q, (n.form.placements position)[i]? = some (q, c) ∧ (∃ us, c.trace q = .ok us) ∧
      ∃ pre post, Outside [i] pre ∧ Outside [i] post ∧ ∀ x : Node,
      (n.withForm (n.form.setChild i x)).ownTrace position
        = (x.trace q).map fun us => pre ++ us.map (Traced.under [i]) ++ post := by
  obtain ⟨ns, hns, hrun⟩ := ownTrace_eq_ok_iff.mp h
  obtain ⟨before, q, after, rfl, hbefore, hafter, hplace, hset⟩ := Form.numbered_setChild hns hc
  obtain ⟨hpart, pre, post, hpre, hpost, haround⟩ := Piece.runTraced_around hrun hbefore hafter
  refine ⟨q, hplace, hpart, pre, post, hpre, hpost, fun x => ?_⟩
  rw [ownTrace_eq, form_withForm, hset]
  exact haround x

/-- **What a node writes around a place below it does not depend on what stands there**, and does not
come from there. -/
theorem ownTrace_setAt {n m : Node} {position : Position} {ss : List Traced} {i : Nat} {p : Path}
    (h : n.ownTrace position = .ok ss) (hm : n.at? (i :: p) = some m) :
    ∃ q, n.positionAt position (i :: p) = some q ∧ (∃ us, m.trace q = .ok us) ∧
      ∃ pre post, Outside (i :: p) pre ∧ Outside (i :: p) post ∧ ∀ x : Node,
      (n.setAt (i :: p) x).ownTrace position
        = (x.trace q).map fun us => pre ++ us.map (Traced.under (i :: p)) ++ post := by
  induction p generalizing n i position ss with
  | nil =>
    have hc : n.children[i]? = some m := (at?_singleton n i).symm.trans hm
    obtain ⟨q, hplace, hpart, pre, post, hpre, hpost, haround⟩ := ownTrace_setChild h hc
    refine ⟨q, positionAt_cons hplace [], hpart, pre, post, hpre, hpost, fun x => ?_⟩
    rw [setAt_singleton hc]
    exact haround x
  | cons j p ih =>
    rw [at?_cons] at hm
    obtain ⟨c, hc, hcm⟩ := Option.bind_eq_some_iff.mp hm
    obtain ⟨q, hplace, ⟨us, hus⟩, pre, post, hpre, hpost, haround⟩ := ownTrace_setChild h hc
    obtain ⟨vs, hvs, -⟩ := trace_eq_ok_iff.mp hus
    obtain ⟨r, hposition, hpart, pre', post', hpre', hpost', hinner⟩ := ih hvs hcm
    have hne : j :: p ≠ [] := List.cons_ne_nil j p
    refine ⟨r, (positionAt_cons hplace (j :: p)).trans hposition, hpart,
      pre ++ (c.own.opened ++ pre').map (Traced.under [i]),
      (post' ++ c.own.closed).map (Traced.under [i]) ++ post, ?_, ?_, fun x => ?_⟩
    · exact (hpre.below (j :: p)).append (((Tag.outside_opened hne c.own).append hpre').under i)
    · exact ((hpost'.append (Tag.outside_closed hne c.own)).under i).append (hpost.below (j :: p))
    · have hown : (c.setAt (j :: p) x).own = c.own := by
        rw [setAt_cons]
        split <;> rfl
      rw [setAt_cons_of_children hc, haround, trace, hown, hinner]
      cases x.trace r with
      | error e => rfl
      | ok ws =>
        refine congrArg Except.ok ?_
        simp [Tag.enclose_eq, Function.comp_def, Traced.under_under]

/-- **What a tree writes around a place below the root does not depend on what stands there**, and does
not come from there. -/
theorem tracedSequence_setAt {n m : Node} {ss : List Traced} {p : Path}
    (h : n.tracedSequence = .ok ss) (hm : n.at? p = some m) (hp : p ≠ []) :
    ∃ q, n.positionAt .statement p = some q ∧ (∃ us, m.trace q = .ok us) ∧
      ∃ pre post, Outside p pre ∧ Outside p post ∧ ∀ x : Node,
      (n.setAt p x).tracedSequence
        = (x.trace q).map fun us => pre ++ us.map (Traced.under p) ++ post := by
  obtain ⟨i, p, rfl⟩ := List.exists_cons_of_ne_nil hp
  obtain ⟨us, hus, -⟩ := tracedSequence_eq_ok_iff.mp h
  obtain ⟨q, hposition, hpart, pre, post, hpre, hpost, haround⟩ := ownTrace_setAt hus hm
  refine ⟨q, hposition, hpart, n.rootTag.opened ++ pre, post ++ n.rootTag.closed,
    (Tag.outside_opened hp n.rootTag).append hpre, hpost.append (Tag.outside_closed hp n.rootTag),
    fun x => ?_⟩
  have hroot : (n.setAt (i :: p) x).rootTag = n.rootTag := by
    rw [setAt_cons]
    split
    · rfl
    · exact rootTag_withForm (Form.kind_setChild i _ n.form)
  rw [tracedSequence, hroot, haround]
  cases x.trace q with
  | error e => rfl
  | ok ws =>
    refine congrArg Except.ok ?_
    simp [Tag.enclose_eq]

/-- **Around a place below the root, a tree is written the same whatever node stands there.** -/
theorem sequence_setAt {n m : Node} {ts : List Token} {p : Path} (h : n.sequence = .ok ts)
    (hm : n.at? p = some m) (hp : p ≠ []) :
    ∃ q, (∃ us, m.tokens q = .ok us) ∧ ∃ pre post, ∀ x : Node,
      (n.setAt p x).sequence = (x.tokens q).map fun us => pre ++ us ++ post := by
  obtain ⟨ss, hss, rfl⟩ := exists_tracedSequence h
  obtain ⟨q, -, ⟨us, hus⟩, pre, post, -, -, haround⟩ := tracedSequence_setAt hss hm hp
  refine ⟨q, ⟨us.map Traced.token, ?_⟩, pre.map Traced.token, post.map Traced.token, fun x => ?_⟩
  · rw [← map_token_trace, hus]
    rfl
  · rw [← map_token_tracedSequence, haround, ← map_token_trace]
    cases x.trace q with
    | error e => rfl
    | ok vs =>
      refine congrArg Except.ok ?_
      simp [Function.comp_def, Traced.under]

/-- Around a construct that is changed but stays of its kind, a tree is written the same, at the
root too. -/
theorem sequence_setAt_withForm {n m : Node} {ts : List Token} {p : Path}
    (h : n.sequence = .ok ts) (hm : n.at? p = some m) :
    ∃ q, (∃ us, m.ownTokens q = .ok us) ∧ ∃ pre post, ∀ form : Form Node, form.kind = m.kind →
      (n.setAt p (m.withForm form)).sequence
        = ((m.withForm form).ownTokens q).map fun us => pre ++ us ++ post := by
  cases p with
  | nil =>
    obtain rfl : n = m := Option.some.inj ((at?_nil n).symm.trans hm)
    obtain ⟨us, hus, -⟩ := sequence_eq_ok_iff.mp h
    refine ⟨.statement, ⟨us, hus⟩, n.rootTag.opening, n.rootTag.closing, fun form hform => ?_⟩
    rw [setAt_nil, sequence, rootTag_withForm hform, funext (Tag.wrap_eq n.rootTag)]
    rfl
  | cons i p =>
    obtain ⟨q, ⟨us, hus⟩, pre, post, haround⟩ := sequence_setAt h hm (List.cons_ne_nil i p)
    obtain ⟨vs, hvs, -⟩ := tokens_eq_ok_iff.mp hus
    refine ⟨q, ⟨vs, hvs⟩, pre ++ m.own.opening, m.own.closing ++ post, fun form _ => ?_⟩
    rw [haround, tokens]
    cases (m.withForm form).ownTokens q with
    | error e => rfl
    | ok ws =>
      refine congrArg Except.ok ?_
      show pre ++ m.own.wrap ws ++ post = _
      simp only [Tag.wrap_eq, List.append_assoc]

/-- The tokens of a run with its boundary tokens, wherever the run comes from. -/
theorem map_token_around (pre own post : List Traced) (t : Tag) (p : Path) :
    (pre ++ (t.enclose own).map (Traced.under p) ++ post).map Traced.token
      = pre.map Traced.token ++ t.wrap (own.map Traced.token) ++ post.map Traced.token := by
  rw [← Tag.map_token_enclose]
  simp [Function.comp_def, Traced.under]

/-- **A subtree can be exchanged in the sequence.**  Let a tree have a sequence and let a node stand
below the root, in the position in which the production of the node above writes it.  The sequence is
what stands before the node, the node's own tokens in that position within the boundary tokens of its
tag, and what stands behind.  No token before or behind comes from the node or from below it, and all
in between do.  If another node is put there, what stands before and behind is the same and in between
there is what that node writes in that position; if it cannot be written there, neither can the tree,
and the error is that of the node.  So the boundary tokens of a node whose tag is made visible stand
directly before and directly behind its own tokens. -/
theorem sequence_is_compositional {n m : Node} {p : Path} {ts : List Token}
    (written : n.sequence = .ok ts) (hm : n.at? p = some m) (hp : p ≠ []) :
    ∃ (q : Position) (pre own post : List Traced), n.positionAt .statement p = some q ∧
      m.ownTokens q = .ok (own.map Traced.token) ∧
      ts = pre.map Traced.token ++ m.own.wrap (own.map Traced.token) ++ post.map Traced.token ∧
      n.tracedSequence = .ok (pre ++ (m.own.enclose own).map (Traced.under p) ++ post) ∧
      Outside p pre ∧ Outside p post ∧
      (∀ x us, x.ownTokens q = .ok us → (n.setAt p x).sequence
        = .ok (pre.map Traced.token ++ x.own.wrap us ++ post.map Traced.token)) ∧
      (∀ x e, x.ownTokens q = .error e → (n.setAt p x).sequence = .error e) ∧
      (m.own.isWrapped = true → ts = pre.map Traced.token ++ [m.own.startMarker]
        ++ own.map Traced.token ++ [m.own.endMarker] ++ post.map Traced.token) := by
  obtain ⟨ss, hss, rfl⟩ := exists_tracedSequence written
  obtain ⟨q, hposition, ⟨us, hus⟩, pre, post, hpre, hpost, haround⟩ :=
    tracedSequence_setAt hss hm hp
  obtain ⟨own, hown, rfl⟩ := trace_eq_ok_iff.mp hus
  have hself := haround m
  rw [setAt_at? hm, hus, hss] at hself
  obtain rfl : ss = pre ++ (m.own.enclose own).map (Traced.under p) ++ post :=
    Except.ok.inj hself
  refine ⟨q, pre, own, post, hposition, ownTokens_of_ownTrace hown,
    map_token_around pre own post m.own p, hss, hpre, hpost, ?_, ?_, ?_⟩
  · intro x vs hvs
    rw [← map_token_ownTrace] at hvs
    obtain ⟨ws, hws, rfl⟩ := Except.map_eq_ok_iff.mp hvs
    have hx := haround x
    rw [trace, hws] at hx
    rw [sequence_of_tracedSequence hx]
    exact congrArg Except.ok (map_token_around pre ws post x.own p)
  · intro x e he
    rw [← map_token_ownTrace] at he
    have hx := haround x
    rw [trace, Except.map_eq_error_iff.mp he] at hx
    rw [← map_token_tracedSequence, hx]
    rfl
  · intro hwrapped
    rw [map_token_around, Tag.wrap, if_pos hwrapped]
    simp

/-- A call that was changed, between two statements. -/
def changedCall : Node :=
  let statement (e : Node) : Node := untagged (.expressionStatement e)
  let name (s : String) : Node := untagged (.identifier s)
  untagged (.program [statement (name "a"),
    ⟨.updated, .unknown, .expressionStatement (untagged (.callExpression (name "save") [name "b"]))⟩,
    statement (name "c")])

/-- What stands before and behind the call also stands before and behind a statement that takes its
place. -/
theorem changedCall_is_compositional :
    changedCall.sequence = .ok ["a", ";", "~UPDATED_START~", "save", "(", "b", ")", ";",
      "~UPDATED_END~", "c", ";"] ∧
    (∃ m, changedCall.at? [1] = some m ∧ m.own = .updated) ∧ ([1] : Path) ≠ [] ∧
    ∃ pre post : List Token,
      changedCall.sequence = .ok (pre
        ++ ["~UPDATED_START~", "save", "(", "b", ")", ";", "~UPDATED_END~"] ++ post) ∧
      (changedCall.setAt [1] ⟨.inserted, .unknown, .debuggerStatement⟩).sequence = .ok (pre
        ++ ["~INSERTED_START~", "debugger", ";", "~INSERTED_END~"] ++ post) := by
  refine ⟨rfl, ⟨_, rfl, rfl⟩, List.cons_ne_nil 1 [], ?_⟩
  obtain ⟨q, pre, own, post, hposition, hown, hts, -, -, -, hexchange, -, -⟩ :=
    sequence_is_compositional (n := changedCall) (p := [1]) rfl rfl (List.cons_ne_nil 1 [])
  cases hposition
  have htokens : own.map Traced.token = ["save", "(", "b", ")", ";"] :=
    Except.ok.inj (hown.symm.trans rfl)
  rw [htokens] at hts
  refine ⟨pre.map Traced.token, post.map Traced.token, congrArg Except.ok hts, ?_⟩
  exact hexchange ⟨.inserted, .unknown, .debuggerStatement⟩ ["debugger", ";"] rfl

end Node

end RepairCorpus
