import RepairCorpus.Proofs.Sequence.NumberedPieces
import RepairCorpus.Syntax.Path

/-!
# Where tokens come from

Equal tokens of a sequence may come from different nodes, so a statement that ties a token to a
node cannot be made about the tokens alone.  Here a tree is written once more, with every token
labelled by its origin: the path to the node that writes it, and whether it is one of the node's
boundary tokens or belongs to its production.

The labelled sequence is written by the same productions, and forgetting the labels gives the
sequence back: `Node.map_token_tracedSequence`.  The labels alone are therefore a way of speaking
about positions of a sequence, and nothing else.

Labels are paths, so a node that writes the tokens of a part has to lengthen their paths by the
number of the part.  This is why the pieces of a production are taken with numbered parts.
-/

namespace RepairCorpus

/-- A token with its origin. -/
structure Traced where
  token : Token
  /-- The path to the node that writes the token. -/
  path : Path
  /-- Whether the token is a boundary token of that node. -/
  boundary : Bool
  deriving DecidableEq

namespace Traced

/-- A token whose origin is looked at from further above. -/
def under (p : Path) (t : Traced) : Traced := { t with path := p ++ t.path }

theorem under_under (p q : Path) (t : Traced) : (t.under q).under p = t.under (p ++ q) :=
  congrArg (fun r => (⟨t.token, r, t.boundary⟩ : Traced)) (List.append_assoc p q t.path).symm

end Traced

/-- Encloses labelled tokens of a node in its boundary tokens. -/
def Tag.enclose (t : Tag) (ts : List Traced) : List Traced :=
  if t.isWrapped then ⟨t.startMarker, [], true⟩ :: ts ++ [⟨t.endMarker, [], true⟩] else ts

theorem Tag.map_token_enclose (t : Tag) (ts : List Traced) :
    (t.enclose ts).map Traced.token = t.wrap (ts.map Traced.token) := by
  unfold enclose wrap
  split
  · rw [List.map_append]
    rfl
  · rfl

/-- The labelled tokens of some pieces of a node. -/
def Piece.trace : List (Piece (Position → Except Error (List Traced))) →
    Except Error (List Traced)
  | [] => .ok []
  | .token t :: ps => do return ⟨t, [], false⟩ :: (← trace ps)
  | .part position x :: ps => do
    let ts ← x position
    return ts ++ (← trace ps)

namespace Node

/-- The labelled tokens of a node's production. -/
def ownTrace : Node → Position → Except Error (List Traced) :=
  fold fun _ _ form position => do
    let ps ← (form.mapIdx fun i p q =>
      (fun ts => (p.1.own.enclose ts).map (Traced.under [i])) <$> p.2 q).production position
    Piece.trace ps

/-- The labelled tokens of a node in a position. -/
def trace (n : Node) (position : Position) : Except Error (List Traced) :=
  n.own.enclose <$> n.ownTrace position

/-- The labelled token sequence of a tree. -/
def tracedSequence (n : Node) : Except Error (List Traced) :=
  n.rootTag.enclose <$> n.ownTrace .statement

end Node

/-! ## Through numbered pieces -/

namespace Piece

/-- The labelled tokens of some pieces whose parts are nodes with their numbers. -/
def runTraced (ps : List (Piece (Nat × Node))) : Except Error (List Traced) :=
  trace (ps.map (Piece.map fun p q => (p.2.trace q).map (List.map (Traced.under [p.1]))))

theorem runTraced_token_cons (t : Token) (ps : List (Piece (Nat × Node))) :
    runTraced (.token t :: ps) = (runTraced ps).map (⟨t, [], false⟩ :: ·) := rfl

theorem runTraced_part_cons (position : Position) (i : Nat) (n : Node)
    (ps : List (Piece (Nat × Node))) :
    runTraced (.part position (i, n) :: ps)
      = ((n.trace position).map (List.map (Traced.under [i]))).bind
          fun ts => (runTraced ps).map (ts ++ ·) := rfl

theorem runTraced_token_cons_eq_ok_iff {t : Token} {ps : List (Piece (Nat × Node))}
    {ts : List Traced} :
    runTraced (.token t :: ps) = .ok ts ↔
      ∃ us, runTraced ps = .ok us ∧ ⟨t, [], false⟩ :: us = ts := by
  rw [runTraced_token_cons, Except.map_eq_ok_iff]

theorem runTraced_part_cons_eq_ok_iff {position : Position} {i : Nat} {n : Node}
    {ps : List (Piece (Nat × Node))} {ts : List Traced} :
    runTraced (.part position (i, n) :: ps) = .ok ts ↔
      ∃ us vs, n.trace position = .ok us ∧ runTraced ps = .ok vs ∧
        us.map (Traced.under [i]) ++ vs = ts := by
  rw [runTraced_part_cons, Except.bind_eq_ok_iff]
  constructor
  · rintro ⟨_, hus, h⟩
    obtain ⟨us, hn, rfl⟩ := Except.map_eq_ok_iff.mp hus
    obtain ⟨vs, hvs, rfl⟩ := Except.map_eq_ok_iff.mp h
    exact ⟨us, vs, hn, hvs, rfl⟩
  · rintro ⟨us, vs, hn, hvs, rfl⟩
    exact ⟨_, Except.map_eq_ok_iff.mpr ⟨us, hn, rfl⟩, Except.map_eq_ok_iff.mpr ⟨vs, hvs, rfl⟩⟩

/-- Forgetting the labels gives what the pieces write. -/
theorem map_token_runTraced {ps : List (Piece (Nat × Node))}
    (hparts : ∀ p ∈ parts ps, ∀ position,
      (p.2.trace position).map (List.map Traced.token) = p.2.tokens position) :
    (runTraced ps).map (List.map Traced.token) = run (ps.map (Piece.map Prod.snd)) := by
  induction ps with
  | nil => rfl
  | cons p ps ih =>
    cases p with
    | token t =>
      rw [List.map_cons, runTraced_token_cons, show Piece.map Prod.snd (.token t) = .token t from rfl,
        run_token_cons, ← ih hparts]
      cases runTraced ps <;> rfl
    | part position p =>
      obtain ⟨i, n⟩ := p
      have hn := hparts (i, n) List.mem_cons_self position
      rw [List.map_cons, runTraced_part_cons,
        show Piece.map Prod.snd (.part position (i, n)) = .part position n from rfl, run_part_cons,
        ← ih fun p hp => hparts p (List.mem_cons_of_mem _ hp), ← hn]
      cases n.trace position with
      | error e => rfl
      | ok us =>
        cases runTraced ps with
        | error e => rfl
        | ok vs =>
          refine congrArg Except.ok ?_
          show (us.map (Traced.under [i]) ++ vs).map Traced.token = _
          rw [List.map_append, List.map_map]
          rfl

end Piece

namespace Node

/-- **A node is written with labels by listing its numbered pieces and writing these.** -/
theorem ownTrace_eq (n : Node) (position : Position) :
    n.ownTrace position = (n.form.numbered position).bind Piece.runTraced := by
  obtain ⟨own, underlying, form⟩ := n
  have hform : (form.map fun n => (n, ownTrace n)).mapIdx (fun i p q =>
        (fun ts => (p.1.own.enclose ts).map (Traced.under [i])) <$> p.2 q)
      = form.mapIdx fun i c q => (c.trace q).map (List.map (Traced.under [i])) := by
    rw [Form.map, Form.mapIdx_mapIdx]
    refine Form.mapIdx_congr fun i c _ => funext fun q => ?_
    show _ <$> c.ownTrace q = (c.own.enclose <$> c.ownTrace q).map _
    cases c.ownTrace q <;> rfl
  rw [ownTrace, fold_mk, ← ownTrace, hform, Form.production_mapIdx]
  cases form.numbered position <;> rfl

theorem ownTrace_eq_ok_iff {n : Node} {position : Position} {ts : List Traced} :
    n.ownTrace position = .ok ts ↔
      ∃ ps, n.form.numbered position = .ok ps ∧ Piece.runTraced ps = .ok ts := by
  rw [ownTrace_eq, Except.bind_eq_ok_iff]

theorem trace_eq_ok_iff {n : Node} {position : Position} {ts : List Traced} :
    n.trace position = .ok ts ↔ ∃ us, n.ownTrace position = .ok us ∧ n.own.enclose us = ts :=
  Except.map_eq_ok_iff

theorem tracedSequence_eq_ok_iff {n : Node} {ts : List Traced} :
    n.tracedSequence = .ok ts ↔
      ∃ us, n.ownTrace .statement = .ok us ∧ n.rootTag.enclose us = ts :=
  Except.map_eq_ok_iff

/-- Boundary tokens are enclosed alike with and without labels. -/
theorem map_token_enclose {x : Except Error (List Traced)} {y : Except Error (List Token)}
    (h : x.map (List.map Traced.token) = y) (t : Tag) :
    (t.enclose <$> x).map (List.map Traced.token) = t.wrap <$> y := by
  subst h
  cases x with
  | error e => rfl
  | ok ts => exact congrArg Except.ok (t.map_token_enclose ts)

/-- Forgetting the labels gives the tokens of a node's production. -/
theorem map_token_ownTrace (n : Node) (position : Position) :
    (n.ownTrace position).map (List.map Traced.token) = n.ownTokens position := by
  induction n using Node.induction generalizing position with
  | step own underlying form ih =>
    rw [ownTrace_eq, ownTokens_eq]
    show ((form.numbered position).bind Piece.runTraced).map _ = (form.production position).bind _
    rw [Form.production_eq_numbered]
    cases hps : form.numbered position with
    | error e => rfl
    | ok ps =>
      refine Piece.map_token_runTraced fun p hp q => ?_
      have hchild : p.2 ∈ form.children := by
        rw [Form.parts_numbered hps] at hp
        obtain ⟨i, hi, rfl⟩ := List.mem_mapIdx.mp hp
        exact List.getElem_mem hi
      exact map_token_enclose (ih p.2 hchild q) p.2.own

theorem map_token_trace (n : Node) (position : Position) :
    (n.trace position).map (List.map Traced.token) = n.tokens position :=
  map_token_enclose (map_token_ownTrace n position) n.own

/-- **Forgetting the labels gives the sequence of a tree.** -/
theorem map_token_tracedSequence (n : Node) :
    n.tracedSequence.map (List.map Traced.token) = n.sequence :=
  map_token_enclose (map_token_ownTrace n .statement) n.rootTag

theorem rootTag_withForm {n : Node} {form : Form Node} (h : form.kind = n.kind) :
    (n.withForm form).rootTag = n.rootTag := by
  unfold rootTag
  rw [show (n.withForm form).kind = n.kind from h]
  rfl

theorem ownTokens_of_ownTrace {n : Node} {position : Position} {ts : List Traced}
    (h : n.ownTrace position = .ok ts) : n.ownTokens position = .ok (ts.map Traced.token) := by
  rw [← map_token_ownTrace, h]
  rfl

theorem sequence_of_tracedSequence {n : Node} {ts : List Traced} (h : n.tracedSequence = .ok ts) :
    n.sequence = .ok (ts.map Traced.token) := by
  rw [← map_token_tracedSequence, h]
  rfl

/-- Every sequence can be labelled. -/
theorem exists_tracedSequence {n : Node} {ts : List Token} (h : n.sequence = .ok ts) :
    ∃ ss, n.tracedSequence = .ok ss ∧ ss.map Traced.token = ts := by
  rw [← map_token_tracedSequence] at h
  exact Except.map_eq_ok_iff.mp h

end Node

end RepairCorpus
