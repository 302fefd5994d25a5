import RepairCorpus.Proofs.Mutation.Runs
import RepairCorpus.Proofs.Sequence.Surroundings

/-!
# Mutants differ from the sequence in one run

A mutant is written from a tree with one try statement taken apart.  Since the tokens of a node
are one run and what stands around it does not depend on the node, the mutant is the sequence of
the tree with the run of the try statement replaced: by the runs of the statements that its block
held, or by the run of the block.

Two kinds of owners need two arguments.  In an owner with room for single statements, one node
takes the place of the try statement, and `Node.sequence_setAt` applies as it is.  In an owner with
a list of statements, any number of nodes take its place, so the owner's own production has to be
opened: `Node.sequence_splice` is the same statement for a place in a list, and says what stands
around the nodes put there.  `Node.sequence_unwrapped` joins the two.

A mutant can always be written.  What was exposed has been written before, as a part of the try
statement, and in statement position both times (`Node.tokens_exposedNodes`); only its boundary
tokens may be new.
-/

namespace RepairCorpus

/-! ## Runs of statements -/

namespace Piece

theorem run_tokens (ts : List Token) : run (tokens ts) = .ok ts := by
  induction ts with
  | nil => rfl
  | cons t ts ih =>
    show (run (tokens ts)).map (t :: ·) = .ok (t :: ts)
    rw [ih]
    rfl

/-- What can be written can be written part by part. -/
theorem exists_tokens_of_run {ps : List (Piece Node)} {ts : List Token} {position : Position}
    {n : Node} (h : run ps = .ok ts) (hn : .part position n ∈ ps) :
    ∃ us, n.tokens position = .ok us := by
  obtain ⟨before, after, rfl⟩ := List.append_of_mem hn
  obtain ⟨_, _, -, hrest, -⟩ := run_append_eq_ok_iff.mp h
  obtain ⟨us, _, hus, -⟩ := run_part_cons_eq_ok_iff.mp hrest
  exact ⟨us, hus⟩

theorem statements_append {α : Type} (xs ys : List α) :
    statements (xs ++ ys) = statements xs ++ statements ys :=
  List.map_append

/-- Statements are written one after the other. -/
theorem run_statements_eq_ok_iff {ns : List Node} {ts : List Token} :
    run (statements ns) = .ok ts ↔
      ∃ runs, ns.mapM (fun n => n.tokens .statement) = .ok runs ∧ runs.flatten = ts := by
  induction ns generalizing ts with
  | nil =>
    constructor
    · intro h
      cases h
      exact ⟨[], rfl, rfl⟩
    · rintro ⟨runs, hruns, rfl⟩
      cases hruns
      rfl
  | cons n ns ih =>
    show run (.part .statement n :: statements ns) = .ok ts ↔ _
    rw [run_part_cons_eq_ok_iff, List.mapM_cons]
    constructor
    · rintro ⟨us, vs, hus, hvs, rfl⟩
      obtain ⟨runs, hruns, rfl⟩ := ih.mp hvs
      exact ⟨us :: runs, by rw [hus, hruns]; rfl, rfl⟩
    · rintro ⟨runs, hruns, rfl⟩
      obtain ⟨us, hus, hrest⟩ := Except.bind_eq_ok_iff.mp hruns
      obtain ⟨runs', hruns', hcons⟩ := Except.bind_eq_ok_iff.mp hrest
      cases hcons
      exact ⟨us, runs'.flatten, hus, ih.mpr ⟨runs', hruns', rfl⟩, rfl⟩

/-- Statements that can be written one by one can be written together. -/
theorem exists_run_statements {ns : List Node}
    (h : ∀ n ∈ ns, ∃ us, n.tokens .statement = .ok us) : ∃ ts, run (statements ns) = .ok ts := by
  induction ns with
  | nil => exact ⟨[], rfl⟩
  | cons n ns ih =>
    obtain ⟨us, hus⟩ := h n List.mem_cons_self
    obtain ⟨vs, hvs⟩ := ih fun m hm => h m (List.mem_cons_of_mem _ hm)
    exact ⟨us ++ vs, run_part_cons_eq_ok_iff.mpr ⟨us, vs, hus, hvs, rfl⟩⟩

end Piece

/-! ## Owners with a list of statements -/

namespace Form

variable {α : Type}

open Piece in
/-- An owner with a list of statements writes these between tokens of its own. -/
theorem production_withStatements {form : Form α} {body : List α}
    (h : form.statements? = some body) :
    ∃ front back : List Token, ∀ body' : List α,
      (form.withStatements body').production .statement
        = .ok (tokens front ++ statements body' ++ tokens back) := by
  cases form <;> simp only [statements?, reduceCtorEq] at h
  case program => exact ⟨[], [], fun body' => congrArg Except.ok (List.append_nil _).symm⟩
  case blockStatement => exact ⟨["\x7b"], ["\x7d"], fun _ => rfl⟩

theorem kind_withStatements (form : Form α) (body : List α) :
    (form.withStatements body).kind = form.kind := by
  cases form <;> rfl

/-- It is no expression. -/
theorem production_expression_of_statements? {form : Form α} {body : List α}
    (h : form.statements? = some body) :
    form.production .expression = .error (.unsupportedKind form.kind .expression) := by
  cases form <;> simp only [statements?, reduceCtorEq] at h <;> rfl

/-- Putting a part in the place of a statement, said of the list. -/
theorem setChild_of_statements? {form : Form α} {body : List α} (h : form.statements? = some body)
    {i : Nat} (hi : i < body.length) (x : α) :
    form.setChild i x = form.withStatements (body.take i ++ [x] ++ body.drop (i + 1)) := by
  have hset : body.mapIdx (fun j y => if j = i then x else y)
      = body.take i ++ [x] ++ body.drop (i + 1) := by
    have hsplit : body.set i x = body.take i ++ x :: body.drop (i + 1) := by
      rw [List.set_eq_take_append_cons_drop, if_pos hi]
    rw [List.append_assoc, List.singleton_append, ← hsplit]
    refine List.ext_getElem? fun j => ?_
    rw [List.getElem?_mapIdx, List.getElem?_set]
    by_cases hj : i = j
    · subst hj
      simp [hi]
    · simp [hj, Ne.symm hj]
  cases form <;> simp only [statements?, reduceCtorEq, Option.some.injEq] at h
  case program =>
    subst h
    exact congrArg Form.program hset
  case blockStatement =>
    subst h
    exact congrArg Form.blockStatement hset

end Form

namespace Node

/-- `pre` and `post` are what a tree writes around a place, whatever stands there as a
statement. -/
def WritesAround (tree : Node) (p : Path) (pre post : List Token) : Prop :=
  ∀ x : Node, (tree.setAt p x).sequence = (x.tokens .statement).map fun us => pre ++ us ++ post

/-- So the run of the statement that does stand there lies between them. -/
theorem WritesAround.sequence {tree n : Node} {p : Path} {pre post us : List Token}
    (h : tree.WritesAround p pre post) (hn : tree.at? p = some n)
    (hus : n.tokens .statement = .ok us) : tree.sequence = .ok (pre ++ us ++ post) := by
  have hself := h n
  rw [setAt_at? hn, hus] at hself
  exact hself

/-- An owner writes the same around one of its statements, whatever nodes are put there. -/
theorem ownTokens_splice {owner : Node} {body : List Node} {ts : List Token}
    (h : owner.ownTokens .statement = .ok ts) (hbody : owner.form.statements? = some body) (i : Nat) :
    ∃ before after, ∀ ns : List Node,
      (owner.withForm (owner.form.withStatements
        (body.take i ++ ns ++ body.drop (i + 1)))).ownTokens .statement
        = (Piece.run (Piece.statements ns)).map fun us => before ++ us ++ after := by
  obtain ⟨front, back, hproduction⟩ := Form.production_withStatements hbody
  obtain ⟨ps, hps, hrun⟩ := ownTokens_eq_ok_iff.mp h
  have hwhole : owner.form.production .statement
      = .ok (Piece.tokens front ++ Piece.statements body ++ Piece.tokens back) := by
    have hself := hproduction body
    rwa [Form.withStatements_eq_self hbody] at hself
  cases hps.symm.trans hwhole
  -- the owner has been written, so the statements on either side can be
  have hwritten (n : Node) (hn : n ∈ body) : ∃ us, n.tokens .statement = .ok us :=
    Piece.exists_tokens_of_run hrun
      (List.mem_append_left _ (List.mem_append_right _ (List.mem_map_of_mem hn)))
  obtain ⟨before, hbefore⟩ : ∃ ts, Piece.run (Piece.statements (body.take i)) = .ok ts :=
    Piece.exists_run_statements fun n hn => hwritten n (List.mem_of_mem_take hn)
  obtain ⟨after, hafter⟩ : ∃ ts, Piece.run (Piece.statements (body.drop (i + 1))) = .ok ts :=
    Piece.exists_run_statements fun n hn => hwritten n (List.mem_of_mem_drop hn)
  refine ⟨front ++ before, after ++ back, fun ns => ?_⟩
  rw [ownTokens_eq, form_withForm, hproduction]
  simp only [Except.bind, Piece.statements_append, Piece.run_append, Piece.run_tokens, hbefore, hafter]
  cases Piece.run (Piece.statements ns) with
  | error e => rfl
  | ok us =>
    refine congrArg Except.ok ?_
    simp only [List.append_assoc]

/-- **Around a place in a list of statements, a tree is written the same whatever nodes are put
there.** -/
theorem sequence_splice {tree owner t : Node} {ts : List Token} {q : Path} {i : Nat}
    {body : List Node} (h : tree.sequence = .ok ts) (howner : tree.at? q = some owner)
    (hbody : owner.form.statements? = some body) (ht : body[i]? = some t) :
    ∃ pre post, tree.WritesAround (q ++ [i]) pre post ∧ ∀ ns : List Node,
      (tree.setAt q (owner.withForm
        (owner.form.withStatements (body.take i ++ ns ++ body.drop (i + 1))))).sequence
        = (Piece.run (Piece.statements ns)).map fun us => pre ++ us ++ post := by
  obtain ⟨hi, rfl⟩ := List.getElem?_eq_some_iff.mp ht
  obtain ⟨position, ⟨us, hus⟩, pre, post, haround⟩ := sequence_setAt_withForm h howner
  obtain rfl : position = .statement := by
    cases position with
    | statement => rfl
    | expression =>
      obtain ⟨ps, hps, -⟩ := ownTokens_eq_ok_iff.mp hus
      rw [Form.production_expression_of_statements? hbody] at hps
      cases hps
  obtain ⟨before, after, hown⟩ := ownTokens_splice hus hbody i
  have hsplice (ns : List Node) :
      (tree.setAt q (owner.withForm
        (owner.form.withStatements (body.take i ++ ns ++ body.drop (i + 1))))).sequence
        = (Piece.run (Piece.statements ns)).map fun us => pre ++ before ++ us ++ (after ++ post) := by
    rw [haround _ (Form.kind_withStatements owner.form _), hown]
    cases Piece.run (Piece.statements ns) with
    | error e => rfl
    | ok us =>
      refine congrArg Except.ok ?_
      simp only [List.append_assoc]
  refine ⟨pre ++ before, after ++ post, fun x => ?_, hsplice⟩
  have ht' : owner.children[i]? = some body[i] := by
    rw [show owner.children = body from Form.children_eq_of_statements? hbody]
    exact List.getElem?_eq_getElem hi
  rw [setAt_append howner, setAt_singleton ht', Form.setChild_of_statements? hbody hi, hsplice]
  show ((x.tokens .statement).bind fun us => _).map _ = _
  cases x.tokens .statement with
  | error e => rfl
  | ok us =>
    refine congrArg Except.ok ?_
    show pre ++ before ++ (us ++ []) ++ _ = _
    rw [List.append_nil]

end Node

/-! ## What is exposed -/

/-- Whether a construct holds a list of statements. -/
def Kind.holdsStatements : Kind → Bool
  | .program | .blockStatement => true
  | _ => false

theorem Form.isSome_statements? {α : Type} (form : Form α) :
    form.statements?.isSome = form.kind.holdsStatements := by
  cases form <;> rfl

namespace OpenedTry

/-- A try statement is written as a statement, and so are its block and what the block holds. -/
theorem of_tokens_close {o : OpenedTry} {position : Position} {ts : List Token}
    (h : o.close.tokens position = .ok ts) :
    position = .statement ∧ (∃ us, (o.block.around o.body).tokens .statement = .ok us) ∧
      ∀ n ∈ o.body, ∃ us, n.tokens .statement = .ok us := by
  obtain ⟨own, hown, -⟩ := Node.tokens_eq_ok_iff.mp h
  obtain ⟨ps, hps, hrun⟩ := Node.ownTokens_eq_ok_iff.mp hown
  cases position with
  | expression => cases hps
  | statement =>
    have hblock : .part .statement (o.block.around o.body) ∈ ps := by
      change (if _ then _ else _) = _ at hps
      split at hps
      · cases hps
      · cases hps
        exact List.mem_append_left _ (List.mem_append_left _
          (List.mem_cons_of_mem _ List.mem_cons_self))
    obtain ⟨us, hus⟩ := Piece.exists_tokens_of_run hrun hblock
    refine ⟨rfl, ⟨us, hus⟩, fun n hn => ?_⟩
    obtain ⟨vs, hvs, -⟩ := Node.tokens_eq_ok_iff.mp hus
    obtain ⟨qs, hqs, hinner⟩ := Node.ownTokens_eq_ok_iff.mp hvs
    cases hqs
    refine Piece.exists_tokens_of_run hinner (List.mem_append_left _ (List.mem_append_right _ ?_))
    exact List.mem_map_of_mem hn

end OpenedTry

namespace Node

/-- The nodes that take the place of a try statement around a block, in an owner of some kind. -/
def exposedNodes (owner : Kind) (block : Node) (body : List Node) : List Node :=
  if owner.holdsStatements then body.map expose
  else
    match body with
    | [only] => [only.expose]
    | _ => [block.expose]

theorem ownTokens_withOwn (n : Node) (t : Tag) (position : Position) :
    (n.withOwn t).ownTokens position = n.ownTokens position := by
  obtain ⟨own, underlying, form⟩ := n
  show ownTokens ⟨t, underlying, form⟩ position = ownTokens ⟨own, underlying, form⟩ position
  rw [ownTokens_mk, ownTokens_mk]

/-- Exposing a node may add boundary tokens, and changes nothing about whether it can be
written. -/
theorem exists_tokens_expose {n : Node} {position : Position} {us : List Token}
    (h : n.tokens position = .ok us) : ∃ vs, n.expose.tokens position = .ok vs := by
  obtain ⟨own, hown, -⟩ := tokens_eq_ok_iff.mp h
  have hexpose : n.expose.ownTokens position = .ok own := by
    unfold expose
    split
    · rw [ownTokens_withOwn, hown]
    · exact hown
  exact ⟨_, tokens_eq_ok_iff.mpr ⟨own, hexpose, rfl⟩⟩

/-- **What is exposed can be written where the try statement could.** -/
theorem tokens_exposedNodes {o : OpenedTry} {position : Position} {ts : List Token}
    (h : o.close.tokens position = .ok ts) (owner : Kind) :
    ∀ n ∈ exposedNodes owner (o.block.around o.body) o.body,
      ∃ us, n.tokens .statement = .ok us := by
  obtain ⟨-, ⟨us, hblock⟩, hbody⟩ := OpenedTry.of_tokens_close h
  unfold exposedNodes
  split
  · intro n hn
    obtain ⟨m, hm, rfl⟩ := List.mem_map.mp hn
    obtain ⟨vs, hvs⟩ := hbody m hm
    exact exists_tokens_expose hvs
  · split
    next only heq =>
      intro n hn
      rw [List.mem_singleton.mp hn]
      obtain ⟨vs, hvs⟩ := hbody only (heq ▸ List.mem_cons_self)
      exact exists_tokens_expose hvs
    · intro n hn
      rw [List.mem_singleton.mp hn]
      exact exists_tokens_expose hblock

/-- Outside lists of statements a single node is exposed, and takes the place of the try
statement. -/
theorem exposedNodes_of_slots {form : Form Node} (hs : form.statements? = none) (index : Nat)
    (o : OpenedTry) : ∃ e, exposedNodes form.kind (o.block.around o.body) o.body = [e] ∧
      (form.exposed index o).1 = form.setChild index e := by
  have hkind : form.kind.holdsStatements = false := by
    rw [← Form.isSome_statements?, hs]
    rfl
  refine ⟨o.standIn.1, ?_, by rw [Form.exposed_of_no_list hs]⟩
  unfold exposedNodes
  rw [hkind]
  obtain ⟨frame, block, _ | ⟨only, _ | ⟨next, rest⟩⟩⟩ := o <;> rfl

/-- A tree with a try statement taken apart is the tree with its owner changed. -/
theorem unwrapped_eq {tree owner t : Node} {c : Candidate} {o : OpenedTry}
    (howner : tree.at? c.owner = some owner) (hgives : owner.kind.givesUpTry = true)
    (ht : owner.children[c.index]? = some t) (ho : OpenedTry.ofNode t = .ok o) :
    tree.unwrapped c
      = tree.setAt c.owner (owner.withForm (owner.form.exposed c.index o).1) := by
  have hd : tree.detach c = .ok (tree.setAt c.owner
      (owner.withForm (owner.form.exposed c.index o).1),
        ⟨c, o.frame, (owner.form.exposed c.index o).2⟩) :=
    detach_eq_ok_iff.mpr ⟨owner, _, _, _, howner,
      Form.detach_eq_ok_iff.mpr ⟨hgives, t, o, ht, ho, rfl, rfl⟩, rfl, rfl⟩
  rw [unwrapped, hd]

/-- **A tree with a try statement taken apart is written like the tree, with the runs of the exposed
nodes in the place of the try statement's run.** -/
theorem sequence_unwrapped {tree owner t : Node} {ts : List Token} {c : Candidate} {o : OpenedTry}
    (h : tree.sequence = .ok ts) (howner : tree.at? c.owner = some owner)
    (hgives : owner.kind.givesUpTry = true) (ht : owner.children[c.index]? = some t)
    (ho : OpenedTry.ofNode t = .ok o) :
    ∃ pre post r, t.tokens .statement = .ok r ∧ tree.WritesAround c.path pre post ∧
      (tree.unwrapped c).sequence
        = (Piece.run (Piece.statements
            (exposedNodes owner.kind (o.block.around o.body) o.body))).map
              fun us => pre ++ us ++ post := by
  have hplace : tree.at? c.path = some t := by
    rw [Candidate.path, at?_append_of_at? howner, at?_singleton, ht]
  have hpath : c.path ≠ [] := List.append_ne_nil_of_right_ne_nil _ (List.cons_ne_nil _ _)
  obtain rfl : o.close = t := OpenedTry.close_of_ofNode ho
  obtain ⟨position, ⟨r, hr⟩, pre, post, haround⟩ := sequence_setAt h hplace hpath
  obtain ⟨rfl, -, -⟩ := OpenedTry.of_tokens_close hr
  cases hs : owner.form.statements? with
  | none =>
    obtain ⟨e, hexposed, hform⟩ := exposedNodes_of_slots hs c.index o
    refine ⟨pre, post, r, hr, haround, ?_⟩
    have hset : tree.unwrapped c = tree.setAt c.path e := by
      rw [unwrapped_eq howner hgives ht ho, hform, Candidate.path, setAt_append howner,
        setAt_singleton ht]
    rw [hset, haround, show exposedNodes owner.kind _ o.body = [e] from hexposed]
    show _ = ((e.tokens .statement).bind fun us => _).map _
    cases e.tokens .statement with
    | error e => rfl
    | ok us =>
      refine congrArg Except.ok ?_
      show pre ++ us ++ post = pre ++ (us ++ []) ++ post
      rw [List.append_nil]
  | some body =>
    have hbody : body[c.index]? = some o.close := by
      rw [← Form.children_eq_of_statements? hs]
      exact ht
    obtain ⟨pre, post, haround, hsplice⟩ := sequence_splice h howner hs hbody
    refine ⟨pre, post, r, hr, haround, ?_⟩
    have hkind : owner.kind.holdsStatements = true := by
      rw [kind, ← Form.isSome_statements?, hs]
      rfl
    have hform : (owner.form.exposed c.index o).1 = owner.form.withStatements
        (body.take c.index ++ o.body.map expose ++ body.drop (c.index + 1)) := by
      rw [Form.exposed, hs]
    have hexposed : exposedNodes owner.kind (o.block.around o.body) o.body = o.body.map expose :=
      if_pos hkind
    rw [unwrapped_eq howner hgives ht ho, hform, hsplice, hexposed]

end Node

/-! ## Runs over the candidates -/

namespace MutantRun

/-- The call for a candidate answers what the candidate gives on its own. -/
theorem next?_after {tree : Node} {i : Nat} {c : Candidate} (hc : tree.candidates[i]? = some c) :
    (after tree i).next? = some (tree.outcome c, after tree (i + 1)) := by
  obtain ⟨hi, rfl⟩ := List.getElem?_eq_some_iff.mp hc
  rw [after_eq, after_eq, List.drop_eq_getElem_cons hi, next?_cons]

/-- Only candidates are called for. -/
theorem candidate_of_next? {tree : Node} {i : Nat} {result : Except Error Mutant} {run : MutantRun}
    (h : (after tree i).next? = some (result, run)) :
    ∃ c, tree.candidates[i]? = some c ∧ result = tree.outcome c := by
  cases hc : tree.candidates[i]? with
  | none =>
    rw [after_eq, List.drop_eq_nil_of_le (List.getElem?_eq_none_iff.mp hc)] at h
    cases h
  | some c =>
    rw [next?_after hc] at h
    cases h
    exact ⟨c, rfl, rfl⟩

/-- **The outcome for a candidate of a tree that can be written.**  Under an owner that does not
give up try statements the candidate is skipped; under the others there is a mutant, which differs
from the sequence in the run of the try statement only. -/
theorem outcome_of_sequence {tree owner : Node} {ts : List Token} {c : Candidate}
    {o : OpenedTry} (h : tree.sequence = .ok ts) (hc : c ∈ tree.candidates)
    (howner : tree.at? c.owner = some owner) (ho : tree.at? c.path = some o.close) :
    (owner.kind.givesUpTry = false → tree.outcome c = .ok (.skipped owner.kind)) ∧
    (owner.kind.givesUpTry = true → o.frame.own = .inserted ∧ ∃ own runs pre post,
      o.close.ownTokens .statement = .ok own ∧ tree.WritesAround c.path pre post ∧
      ts = pre ++ (Tag.inserted.startMarker :: own ++ [Tag.inserted.endMarker]) ++ post ∧
      (Node.exposedNodes owner.kind (o.block.around o.body) o.body).mapM
        (fun n => n.tokens .statement) = .ok runs ∧
      tree.outcome c = .ok (.sequence (pre ++ runs.flatten ++ post))) := by
  obtain ⟨owner', underlying, block, handler, finalizer, howner', ht, houtcome⟩ :=
    Node.outcomeFor_of_mem_candidates hc
  obtain rfl : owner' = owner := Option.some.inj (howner'.symm.trans howner)
  have hclose : owner'.children[c.index]? = some o.close := by
    rw [← Node.at?_singleton, ← Node.at?_append_of_at? howner]
    exact ho
  have hparts := Option.some.inj (ht.symm.trans hclose)
  have hblock : block.kind = .blockStatement := by
    have hform := congrArg Node.form hparts
    injection hform with hblock
    rw [hblock]
    rfl
  refine ⟨fun hgives => (houtcome.skipped owner'.kind).mpr ⟨hgives, rfl⟩, fun hgives => ?_⟩
  have hinserted : o.frame.own = .inserted := (congrArg Node.own hparts).symm
  obtain ⟨pre, post, r, hr, haround, hsequence⟩ :=
    Node.sequence_unwrapped h howner hgives hclose rfl
  obtain ⟨own, hown, hwrap⟩ := Node.tokens_eq_ok_iff.mp hr
  obtain ⟨us, hus⟩ := Piece.exists_run_statements (Node.tokens_exposedNodes hr owner'.kind)
  obtain ⟨runs, hruns, rfl⟩ := Piece.run_statements_eq_ok_iff.mp hus
  refine ⟨hinserted, own, runs, pre, post, hown, haround, ?_, hruns, ?_⟩
  · have hts := haround.sequence ho hr
    rw [h, ← hwrap, show o.close.own = .inserted from hinserted] at hts
    exact Except.ok.inj hts
  · refine (houtcome.written _).mpr ⟨hgives, hblock, ?_⟩
    rw [hsequence, hus]
    rfl

/-- When no candidate fails, there are as many sequences as candidates that give one. -/
theorem length_filterMap_outcomes {tree : Node} {gives : Candidate → Bool} {cs : List Candidate}
    (h : ∀ c ∈ cs, ∃ m, tree.outcome c = .ok m ∧ m.tokens?.isSome = gives c) :
    ∃ ms, cs.mapM tree.outcome = .ok ms ∧
      (ms.filterMap Mutant.tokens?).length = (cs.filter gives).length := by
  induction cs with
  | nil => exact ⟨[], rfl, rfl⟩
  | cons c cs ih =>
    obtain ⟨m, hm, hgives⟩ := h c List.mem_cons_self
    obtain ⟨ms, hms, hlen⟩ := ih fun d hd => h d (List.mem_cons_of_mem _ hd)
    refine ⟨m :: ms, ?_, ?_⟩
    · rw [List.mapM_cons, hm, hms]
      rfl
    · rw [List.filterMap_cons, List.filter_cons, ← hgives]
      cases m.tokens? with
      | none => exact hlen
      | some ts => exact congrArg (· + 1) hlen

/-- **Taking a try statement apart changes the sequence in one run.**  Let a tree have a sequence,
and let every candidate's try statement have a block statement as its block.  Then no call for the
next candidate answers an error.  For each candidate under an owner that gives up try statements,
the sequence is the run of the try statement, enclosed in the boundary tokens of an insertion,
between the tokens that the tree writes around that place; and the mutant has in the place of
that run the runs of the exposed nodes: the block's statements where the owner holds a list of
statements, and otherwise the block's only statement, or the block when it does not hold exactly
one, tagged as inserted where they inherited their tag.  There are as many mutants as candidates
with such an owner. -/
theorem unwrapping_changes_one_run (tree : Node) (ts : List Token) (written : tree.sequence = .ok ts)
    (blocks : ∀ c ∈ tree.candidates, ∀ own underlying block handler finalizer,
      tree.at? c.path = some ⟨own, underlying, .tryStatement block handler finalizer⟩ →
        block.kind = .blockStatement) :
    (∀ calls result run, (after tree calls).next? = some (result, run) → ∃ m, result = .ok m) ∧
    (∀ i c owner, tree.candidates[i]? = some c → tree.at? c.owner = some owner →
      owner.kind.givesUpTry = true → ∃ o own runs pre post,
        tree.at? c.path = some (OpenedTry.close o) ∧ o.frame.own = .inserted ∧
        o.close.ownTokens .statement = .ok own ∧ tree.WritesAround c.path pre post ∧
        ts = pre ++ (Tag.inserted.startMarker :: own ++ [Tag.inserted.endMarker]) ++ post ∧
        (Node.exposedNodes owner.kind (o.block.around o.body) o.body).mapM
          (fun n => n.tokens .statement) = .ok runs ∧
        (after tree i).next?
          = some (.ok (.sequence (pre ++ runs.flatten ++ post)), after tree (i + 1))) ∧
    ∃ mutants, tree.mutantSequences = .ok mutants ∧
      mutants.length = (tree.candidates.filter fun c =>
        (tree.at? c.owner).any fun owner => owner.kind.givesUpTry).length := by
  have hopened {c : Candidate} (hc : c ∈ tree.candidates) :
      ∃ o : OpenedTry, tree.at? c.path = some o.close := by
    obtain ⟨owner, underlying, block, handler, finalizer, howner, ht, -⟩ :=
      Node.outcomeFor_of_mem_candidates hc
    have hplace : tree.at? c.path
        = some ⟨.inserted, underlying, .tryStatement block handler finalizer⟩ := by
      rw [Candidate.path, Node.at?_append_of_at? howner, Node.at?_singleton, ht]
    rcases OpenedTry.ofNode_tryStatement .inserted underlying block handler finalizer with
      ⟨⟨o, ho⟩, -⟩ | ⟨-, hblock⟩
    · exact ⟨o, by rw [OpenedTry.close_of_ofNode ho, hplace]⟩
    · exact absurd (blocks c hc _ _ _ _ _ hplace) hblock
  have houtcome : ∀ c ∈ tree.candidates, ∃ m, tree.outcome c = .ok m ∧
      m.tokens?.isSome = (tree.at? c.owner).any fun owner => owner.kind.givesUpTry := by
    intro c hc
    obtain ⟨o, ho⟩ := hopened hc
    obtain ⟨owner, -, howner, -⟩ := Node.mem_candidates.mp hc
    obtain ⟨hskipped, hwritten⟩ := outcome_of_sequence written hc howner ho
    rw [howner, Option.any_some]
    cases hgives : owner.kind.givesUpTry with
    | false => exact ⟨_, hskipped hgives, rfl⟩
    | true =>
      obtain ⟨-, own, runs, pre, post, -, -, -, -, hm⟩ := hwritten hgives
      exact ⟨_, hm, rfl⟩
  refine ⟨fun calls result run hcall => ?_, fun i c owner hi howner hgives => ?_, ?_⟩
  · obtain ⟨c, hc, rfl⟩ := candidate_of_next? hcall
    obtain ⟨m, hm, -⟩ := houtcome c (List.mem_of_getElem? hc)
    exact ⟨m, hm⟩
  · have hc := List.mem_of_getElem? hi
    obtain ⟨o, ho⟩ := hopened hc
    obtain ⟨hinserted, own, runs, pre, post, hown, haround, hts, hruns, hm⟩ :=
      (outcome_of_sequence written hc howner ho).2 hgives
    exact ⟨o, own, runs, pre, post, ho, hinserted, hown, haround, hts, hruns,
      by rw [next?_after hi, hm]⟩
  · obtain ⟨ms, hms, hlen⟩ := length_filterMap_outcomes houtcome
    refine ⟨ms.filterMap Mutant.tokens?, ?_, hlen⟩
    rw [Node.mutantSequences, sequencesFrom_eq, hms]
    rfl

/-- A program with three inserted try statements: one in its list of statements, one as the body of
a loop, and one behind a label, which does not give it up. -/
def guardedProgram : Node :=
  let name (s : String) : Node := Node.untagged (.identifier s)
  let say (t : Tag) (s : String) : Node := ⟨t, .inserted, .expressionStatement (name s)⟩
  let guarded (body : List Node) : Node := ⟨.inserted, .inserted,
    .tryStatement (Node.untagged (.blockStatement body)) none
      (some (Node.untagged (.blockStatement [])))⟩
  Node.untagged (.program
    [guarded [say .inherited "a", say .moved "b"],
      Node.untagged (.whileStatement (name "c") (guarded [say .inherited "d"])),
      Node.untagged (.labeledStatement (name "e") (guarded []))])

/-- The program can be written, all its try statements are around blocks, and two of the three give
a mutant. -/
theorem guardedProgram_changes_two_runs : (∃ ts, guardedProgram.sequence = .ok ts) ∧
    guardedProgram.candidates = [⟨[], 0⟩, ⟨[1], 1⟩, ⟨[2], 1⟩] ∧
    ∃ mutants, guardedProgram.mutantSequences = .ok mutants ∧ mutants.length = 2 := by
  have hcandidates : guardedProgram.candidates = [⟨[], 0⟩, ⟨[1], 1⟩, ⟨[2], 1⟩] := rfl
  refine ⟨⟨_, rfl⟩, hcandidates, ?_⟩
  obtain ⟨-, -, mutants, hmutants, hlen⟩ := unwrapping_changes_one_run guardedProgram _ rfl (by
    intro c hc own underlying block handler finalizer hplace
    rw [hcandidates] at hc
    simp only [List.mem_cons, List.not_mem_nil, or_false] at hc
    rcases hc with rfl | rfl | rfl <;> cases hplace <;> rfl)
  exact ⟨mutants, hmutants, hlen⟩

end MutantRun

end RepairCorpus
