import RepairCorpus.Proofs.Abstraction.Masks
import RepairCorpus.Proofs.Sequence.Origins

/-!
# What masking does to a sequence

A masked tree is written like the tree, except that each node that was replaced is one token, its
placeholder, in the place of the tokens its production wrote.  To say so, a sequence is cut into
*stretches*.  A stretch is a token that is kept, or the tokens of a node that is replaced, with the
boundary tokens of that node around them; read before masking, the stretches are the sequence of the
tree, and read after it, the sequence of the masked tree.  Being neighbours in one list, stretches
do not overlap, and a stretch that is cut out has no gap in it.

Cutting a sequence in this way would be easy if nobody asked where the cuts are.  So tokens carry
their origins here, and `Stretch.Fits` says of every stretch that it is where it should be: a kept
token comes from no replaced node and from nothing below one, and a stretch that is cut out is the
labelled production of the node at its path.

The induction over the tree is `Node.cuts_trace`.  It works because placeholders are written in
both positions: `Form.numbered_placeholder` is the only thing about productions that it needs.
-/

namespace RepairCorpus

/-! ## Stretches -/

/-- A stretch of a labelled sequence. -/
inductive Stretch where
  /-- A token that stays. -/
  | kept (t : Traced)
  /-- The node at a path with the tokens of its production, for which a placeholder is put. -/
  | cut (p : Path) (m : Node) (name : String) (run : List Traced)

namespace Stretch

/-- The tokens of a stretch before masking. -/
def before : Stretch → List Traced
  | kept t => [t]
  | cut p m _ run => (m.own.enclose run).map (Traced.under p)

/-- The tokens of a stretch after masking. -/
def after : Stretch → List Traced
  | kept t => [t]
  | cut p m name _ => (m.own.enclose [⟨name, [], false⟩]).map (Traced.under p)

/-- The path of a stretch that is cut out. -/
def path? : Stretch → Option Path
  | kept _ => none
  | cut p _ _ _ => some p

/-- A stretch looked at from further above. -/
def under (p : Path) : Stretch → Stretch
  | kept t => kept (t.under p)
  | cut q m name run => cut (p ++ q) m name run

theorem map_under_append (p q : Path) (ts : List Traced) :
    ts.map (Traced.under (p ++ q)) = (ts.map (Traced.under q)).map (Traced.under p) := by
  rw [List.map_map]
  exact List.map_congr_left fun t _ => (Traced.under_under p q t).symm

theorem before_under (p : Path) (s : Stretch) :
    (s.under p).before = s.before.map (Traced.under p) := by
  cases s with
  | kept t => rfl
  | cut q m name run => exact map_under_append p q _

theorem after_under (p : Path) (s : Stretch) :
    (s.under p).after = s.after.map (Traced.under p) := by
  cases s with
  | kept t => rfl
  | cut q m name run => exact map_under_append p q _

theorem path?_under (p : Path) (s : Stretch) : (s.under p).path? = s.path?.map (p ++ ·) := by
  cases s <;> rfl

/-- Whether a stretch is where a mask asks for it: what is kept comes from no named node and from
nothing below one, and what is cut out is the production of a named node. -/
def Fits (n : Node) (names : Mask) : Stretch → Prop
  | kept t => ∀ q, q <+: t.path → names q = none
  | cut p m name run =>
    n.at? p = some m ∧ names p = some name ∧ ∃ position, m.ownTrace position = .ok run

/-- A stretch that fits a part fits the whole. -/
theorem Fits.under {n c : Node} {names : Mask} {i : Nat} {s : Stretch}
    (hnil : names [] = none) (hc : n.children[i]? = some c) (h : s.Fits c (names.below i)) :
    (s.under [i]).Fits n names := by
  cases s with
  | kept t =>
    intro q hq
    cases q with
    | nil => exact hnil
    | cons j q =>
      obtain ⟨rfl, hq'⟩ := List.cons_prefix_cons.mp hq
      exact h q hq'
  | cut p m name run =>
    obtain ⟨hm, hname, hrun⟩ := h
    refine ⟨?_, hname, hrun⟩
    rw [List.singleton_append, Node.at?_cons, hc]
    exact hm

end Stretch

/-- A sequence before and after masking, cut into stretches that fit. -/
structure Cuts (n : Node) (names : Mask) (stretches : List Stretch) (ts us : List Traced) :
    Prop where
  before : stretches.flatMap Stretch.before = ts
  after : stretches.flatMap Stretch.after = us
  fits : ∀ s ∈ stretches, s.Fits n names
  paths : stretches.filterMap Stretch.path? = n.maskedPaths names

/-! ## One token for a node -/

/-- A placeholder is written in both positions. -/
theorem Form.numbered_placeholder {α : Type} (name : String) (position : Position) :
    (Form.placeholder name : Form α).numbered position = .ok [.token name] := by
  cases position <;> rfl

namespace Node

theorem trace_asPlaceholder (n : Node) (name : String) (position : Position) :
    (n.asPlaceholder name).trace position = .ok (n.own.enclose [⟨name, [], false⟩]) := by
  rw [trace, ownTrace_eq, asPlaceholder, form_withForm, Form.numbered_placeholder]
  rfl

/-- The production of a node that is replaced is one stretch, within the boundary tokens of the
node. -/
theorem cuts_of_some {n : Node} {names : Mask} {name : String} {position : Position}
    {ts : List Traced} (hnil : names [] = some name) (h : n.ownTrace position = .ok ts) :
    Cuts n names [.cut [] n name ts] (n.own.enclose ts) (n.own.enclose [⟨name, [], false⟩]) where
  before := (List.append_nil _).trans (List.map_id _)
  after := (List.append_nil _).trans (List.map_id _)
  fits s hs := by
    rw [List.mem_singleton.mp hs]
    exact ⟨at?_nil n, hnil, position, h⟩
  paths := (maskedPaths_of_some hnil).symm

/-- The boundary tokens of a node that is not replaced are kept. -/
theorem cuts_enclose {n : Node} {names : Mask} {stretches : List Stretch} {ts us : List Traced}
    (hnil : names [] = none) (t : Tag) (h : Cuts n names stretches ts us) :
    ∃ stretches, Cuts n names stretches (t.enclose ts) (t.enclose us) := by
  unfold Tag.enclose
  split
  next ht =>
    have hkept (token : Token) : (Stretch.kept ⟨token, [], true⟩).Fits n names :=
      fun q hq => by rw [List.prefix_nil.mp hq, hnil]
    refine ⟨.kept ⟨t.startMarker, [], true⟩ :: stretches ++ [.kept ⟨t.endMarker, [], true⟩],
      ?_, ?_, fun s hs => ?_, ?_⟩
    · rw [List.flatMap_append, List.flatMap_cons, h.before]
      rfl
    · rw [List.flatMap_append, List.flatMap_cons, h.after]
      rfl
    · rcases List.mem_append.mp hs with hs | hs
      · rcases List.mem_cons.mp hs with rfl | hs
        · exact hkept _
        · exact h.fits s hs
      · rw [List.mem_singleton.mp hs]
        exact hkept _
    · rw [List.filterMap_append, List.filterMap_cons]
      show stretches.filterMap Stretch.path? ++ [] = _
      rw [List.append_nil, h.paths]
  · exact ⟨stretches, h⟩

end Node

/-! ## Through the pieces of a production -/

/-- Writing a part before and after masking, for the part with a number. -/
def CutsPart (names : Mask) (p : Nat × Node) : Prop :=
  ∀ position ts, p.2.trace position = .ok ts → ∃ us,
    (p.2.masked (names.below p.1)).trace position = .ok us ∧
      ∃ stretches, Cuts p.2 (names.below p.1) stretches ts us

/-- Pieces are cut where their parts are. -/
theorem Piece.cuts_runTraced {n : Node} {names : Mask} {ps : List (Piece (Nat × Node))}
    {ts : List Traced} (hnil : names [] = none)
    (hparts : ∀ p ∈ parts ps, n.children[p.1]? = some p.2 ∧ CutsPart names p)
    (h : runTraced ps = .ok ts) :
    ∃ us, runTraced (ps.map (Piece.map fun p => (p.1, p.2.masked (names.below p.1)))) = .ok us ∧
      ∃ stretches : List Stretch, stretches.flatMap Stretch.before = ts ∧
        stretches.flatMap Stretch.after = us ∧ (∀ s ∈ stretches, s.Fits n names) ∧
        stretches.filterMap Stretch.path?
          = (parts ps).flatMap fun p => (p.2.maskedPaths (names.below p.1)).map (p.1 :: ·) := by
  induction ps generalizing ts with
  | nil =>
    cases h
    exact ⟨[], rfl, [], rfl, rfl, nofun, rfl⟩
  | cons p ps ih =>
    cases p with
    | token t =>
      obtain ⟨rest, hrest, rfl⟩ := runTraced_token_cons_eq_ok_iff.mp h
      obtain ⟨us, hus, stretches, rfl, rfl, hfits, hpaths⟩ := ih hparts hrest
      refine ⟨_, runTraced_token_cons_eq_ok_iff.mpr ⟨_, hus, rfl⟩,
        .kept ⟨t, [], false⟩ :: stretches, rfl, rfl, fun s hs => ?_, hpaths⟩
      rcases List.mem_cons.mp hs with rfl | hs
      · intro q hq
        rw [List.prefix_nil.mp hq, hnil]
      · exact hfits s hs
    | part position p =>
      obtain ⟨i, c⟩ := p
      obtain ⟨front, rest, hfront, hrest, rfl⟩ := runTraced_part_cons_eq_ok_iff.mp h
      obtain ⟨us, hus, stretches, rfl, rfl, hfits, hpaths⟩ :=
        ih (fun p hp => hparts p (List.mem_cons_of_mem _ hp)) hrest
      obtain ⟨hc, hpart⟩ := hparts (i, c) List.mem_cons_self
      obtain ⟨vs, hvs, inner, rfl, rfl, hinner, hinnerPaths⟩ := hpart position front hfront
      have hflat (f : Stretch → List Traced)
          (hf : ∀ s : Stretch, f (s.under [i]) = (f s).map (Traced.under [i])) :
          (inner.map (Stretch.under [i])).flatMap f = (inner.flatMap f).map (Traced.under [i]) := by
        rw [List.flatMap_map, List.map_flatMap, List.flatMap_def, List.flatMap_def,
          List.map_congr_left fun s _ => hf s]
      refine ⟨_, runTraced_part_cons_eq_ok_iff.mpr ⟨_, _, hvs, hus, rfl⟩,
        inner.map (Stretch.under [i]) ++ stretches, ?_, ?_, fun s hs => ?_, ?_⟩
      · rw [List.flatMap_append, hflat _ (Stretch.before_under [i])]
      · rw [List.flatMap_append, hflat _ (Stretch.after_under [i])]
      · rcases List.mem_append.mp hs with hs | hs
        · obtain ⟨s', hs', rfl⟩ := List.mem_map.mp hs
          exact (hinner s' hs').under hnil hc
        · exact hfits s hs
      · rw [List.filterMap_append, List.filterMap_map, hpaths, parts_part_cons, List.flatMap_cons,
          ← hinnerPaths, List.map_filterMap]
        congr 1
        exact List.filterMap_congr fun s _ => Stretch.path?_under [i] s

/-! ## Through a tree -/

namespace Node

/-- Writing a node that is not replaced, before and after masking, without its boundary tokens. -/
theorem cuts_ownTrace {n : Node} {names : Mask} {position : Position} {ts : List Traced}
    (hnil : names [] = none)
    (hparts : ∀ i c, n.children[i]? = some c → CutsPart names (i, c))
    (h : n.ownTrace position = .ok ts) : ∃ us, (n.masked names).ownTrace position = .ok us ∧
      ∃ stretches, Cuts n names stretches ts us := by
  obtain ⟨ps, hps, hrun⟩ := ownTrace_eq_ok_iff.mp h
  have hnumbered : (n.form.mapIdx fun i c => c.masked (names.below i)).numbered position
      = .ok (ps.map (Piece.map fun p => (p.1, p.2.masked (names.below p.1)))) := by
    rw [Form.numbered, Form.mapIdx_mapIdx, Form.production_mapIdx, hps]
    rfl
  have hnumberedParts : ∀ p ∈ Piece.parts ps, n.children[p.1]? = some p.2 ∧ CutsPart names p := by
    intro p hp
    rw [Form.parts_numbered hps] at hp
    obtain ⟨i, hi, rfl⟩ := List.mem_mapIdx.mp hp
    have hc : n.children[i]? = some n.form.children[i] := List.getElem?_eq_getElem hi
    exact ⟨hc, hparts i _ hc⟩
  obtain ⟨us, hus, stretches, hbefore, hafter, hfits, hpaths⟩ :=
    Piece.cuts_runTraced hnil hnumberedParts hrun
  refine ⟨us, ?_, stretches, hbefore, hafter, hfits, ?_⟩
  · rw [masked_of_none hnil, ownTrace_eq_ok_iff]
    exact ⟨_, hnumbered, hus⟩
  · rw [hpaths, maskedPaths_of_none hnil, Form.parts_numbered hps, List.flatMap_def]
    congr 1
    exact List.ext_getElem? fun i => by simp [children, Function.comp_def]

/-- Writing a node before and after masking. -/
theorem cuts_trace (n : Node) (names : Mask) (position : Position) (ts : List Traced)
    (h : n.trace position = .ok ts) : ∃ us, (n.masked names).trace position = .ok us ∧
      ∃ stretches, Cuts n names stretches ts us := by
  induction n using Node.induction generalizing names position ts with
  | step own underlying form ih =>
    obtain ⟨vs, hvs, rfl⟩ := trace_eq_ok_iff.mp h
    cases hnil : names [] with
    | some name =>
      rw [masked_of_some hnil]
      exact ⟨_, trace_asPlaceholder _ name position, _, cuts_of_some hnil hvs⟩
    | none =>
      obtain ⟨ws, hws, stretches, hcuts⟩ := cuts_ownTrace hnil
        (fun i c hc q us hus => ih c (List.mem_of_getElem? hc) (names.below i) q us hus) hvs
      refine ⟨_, trace_eq_ok_iff.mpr ⟨ws, hws, rfl⟩, ?_⟩
      rw [own_masked]
      exact cuts_enclose hnil _ hcuts

/-- **Masking a tree cuts its sequence.** -/
theorem cuts_tracedSequence {n : Node} {names : Mask} {ts : List Traced}
    (hnil : names [] = none) (h : n.tracedSequence = .ok ts) :
    ∃ us, (n.masked names).tracedSequence = .ok us ∧ ∃ stretches, Cuts n names stretches ts us := by
  obtain ⟨vs, hvs, rfl⟩ := tracedSequence_eq_ok_iff.mp h
  obtain ⟨ws, hws, stretches, hcuts⟩ := cuts_ownTrace hnil
    (fun i c _ q us hus => cuts_trace c (names.below i) q us hus) hvs
  have hroot : (n.masked names).rootTag = n.rootTag := by
    rw [masked_of_none hnil]
    exact rootTag_withForm (Form.kind_mapIdx _ n.form)
  refine ⟨_, tracedSequence_eq_ok_iff.mpr ⟨ws, hws, rfl⟩, ?_⟩
  rw [hroot]
  exact cuts_enclose hnil _ hcuts

end Node

end RepairCorpus
