import RepairCorpus.Corpus.Outcome
import RepairCorpus.Proofs.Corpus.Structures

/-!
# What becomes of the pairs of a record

A record is worked on pair by pair, and what comes of a pair is an item, an error, or nothing.  The outcome
lists items and errors apart, so that it does not show directly which item is whose.  Here each pair has its
`Fate`, and an outcome `Accounts` for fates: it has the items in the order of the pairs, and the errors, each
with the number of its pair.

The trees of a pair are put into the record as they are, so nothing that is wrong with them can be noticed
when the record is read.  Two lines of a corpus that only differ in the trees of one pair (`OtherTrees`) are
both records or both none.

* `Record.ofLine_of_otherTrees`: **if one of them is a record, so is the other**, and only this pair differs.
* `Record.outcomes_of_otherTrees`: **failures stay inside their pair**: the other pairs have the same fates,
  and every pair has exactly one.
-/

namespace RepairCorpus

variable {α : Type} {v w : Json} {i j : Nat}

/-! ## Fields of pairs -/

namespace SlicePair

/-- Reads a list of labels. -/
def readLabels : Json → Except Error (List String)
  | .array items => readTexts items
  | _ => .error unreadable

/-- Each field is read by itself and becomes one component of the pair. -/
theorem forall_fields {P : FieldReader SlicePair → Prop}
    (before : ∀ f, f.name = "before" → f.Puts readOptionalText (fun p s => { p with before := s }) → P f)
    (after : ∀ f, f.name = "after" → f.Puts readOptionalText (fun p s => { p with after := s }) → P f)
    (beforeTree : ∀ f, f.name = "before-ast" →
      f.Puts readTree (fun p t => { p with beforeTree := t }) → P f)
    (afterTree : ∀ f, f.name = "after-ast" → f.Puts readTree (fun p t => { p with afterTree := t }) → P f)
    (type : ∀ f, f.name = "type" → f.Puts PairType.ofJson (fun p t => { p with type := t }) → P f)
    (labels : ∀ f, f.name = "labels" → f.Puts readLabels (fun p ls => { p with labels := ls }) → P f) :
    ∀ f ∈ fields, P f := by
  simp only [fields, List.forall_mem_cons]
  refine ⟨before _ rfl fun _ _ => rfl, after _ rfl fun _ _ => rfl, beforeTree _ rfl fun _ _ => rfl,
    afterTree _ rfl fun _ _ => rfl, type _ rfl fun _ _ => rfl, labels _ rfl fun p v => ?_, nofun⟩
  cases v <;> rfl

theorem independent_fields : Independent fields where
  names := by decide
  steady := forall_fields (fun _ _ h _ _ _ => h.steady) (fun _ _ h _ _ _ => h.steady)
    (fun _ _ h _ _ _ => h.steady) (fun _ _ h _ _ _ => h.steady) (fun _ _ h _ _ _ => h.steady)
    (fun _ _ h _ _ _ => h.steady)

/-- The names of the trees. -/
def treeFields : List String := ["before-ast", "after-ast"]

theorem component_beforeTree : Component fields "before-ast" SlicePair.beforeTree readTree where
  named := by decide
  serves := forall_fields
    (fun _ hf h => h.serves_other (hf ▸ by decide) fun _ _ => rfl)
    (fun _ hf h => h.serves_other (hf ▸ by decide) fun _ _ => rfl)
    (fun _ hf h => h.serves hf fun _ _ => rfl)
    (fun _ hf h => h.serves_other (hf ▸ by decide) fun _ _ => rfl)
    (fun _ hf h => h.serves_other (hf ▸ by decide) fun _ _ => rfl)
    (fun _ hf h => h.serves_other (hf ▸ by decide) fun _ _ => rfl)

/-- The document of a pair gives no tree before the commit. -/
def LacksBefore (d : Json) : Prop :=
  ∀ x, (membersFor fields d).lookup "before-ast" = some x → x = .null

theorem ofJson_eq_ok_iff {d : Json} {p : SlicePair} :
    ofJson d = .ok p ↔ ∃ g, readStructure fields empty d = .ok g ∧ g.value = p := Except.map_eq_ok_iff

theorem readTree_of_whole (h : v.whole = true) :
    readTree v = .ok (if v.isNull then none else some v.sorted) := by
  rw [readTree, h]
  split
  next hmissing => cases hmissing
  next => split <;> rfl

/-- A pair has no tree before the commit if and only if its document gives none. -/
theorem beforeTree_eq_none_iff {d : Json} {p : SlicePair} (h : ofJson d = .ok p) :
    p.beforeTree = none ↔ LacksBefore d := by
  obtain ⟨g, hread, rfl⟩ := ofJson_eq_ok_iff.mp h
  have hreads := component_beforeTree.reads independent_fields hread
  rw [LacksBefore]
  cases hlookup : (membersFor fields d).lookup "before-ast" with
  | none =>
    rw [hlookup] at hreads
    exact iff_of_true hreads nofun
  | some x =>
    rw [hlookup] at hreads
    have hx : readTree x = .ok g.value.beforeTree := hreads
    rw [readTree] at hx
    split at hx
    next => cases hx
    next =>
      split at hx
      next hnull =>
        refine iff_of_true (Except.ok.inj hx).symm fun y hy => ?_
        cases hy
        cases x <;> first | rfl | cases hnull
      next hnull =>
        refine iff_of_false (by rw [← Except.ok.inj hx]; exact Option.some_ne_none _) fun hlacks => ?_
        rw [hlacks x rfl] at hnull
        exact hnull rfl

/-- **A pair with other trees can be read** if the pair can. -/
theorem exists_ofJson {d d' : Json} {p : SlicePair} (h : SameBut fields treeFields d d')
    (hwhole : d'.whole = true) (hread : ofJson d = .ok p) : ∃ q, ofJson d' = .ok q := by
  obtain ⟨g, hread, -⟩ := ofJson_eq_ok_iff.mp hread
  have htrees : ∀ f ∈ fields, f.name ∈ treeFields →
      ∀ x, (membersFor fields d').lookup f.name = some x → f.Accepts x := by
    have hx {name : String} {x : Json} (hx : (membersFor fields d').lookup name = some x) :
        readTree x = .ok (if x.isNull then none else some x.sorted) :=
      readTree_of_whole (whole_of_mem_membersFor hwhole (Json.mem_of_lookup hx))
    exact forall_fields
      (fun _ hf _ hname => absurd (hf ▸ hname) (by decide))
      (fun _ hf _ hname => absurd (hf ▸ hname) (by decide))
      (fun _ _ h _ x hlookup => h.accepts (hx hlookup))
      (fun _ _ h _ x hlookup => h.accepts (hx hlookup))
      (fun _ hf _ hname => absurd (hf ▸ hname) (by decide))
      (fun _ hf _ hname => absurd (hf ▸ hname) (by decide))
  obtain ⟨g', hread'⟩ := h.exists_readStructure independent_fields hwhole hread htrees
  exact ⟨g'.value, ofJson_eq_ok_iff.mpr ⟨g', hread', rfl⟩⟩

end SlicePair

/-- **Reading a list of pairs** is reading each. -/
theorem readPairs_eq_ok_iff {ds : List Json} {ps : List SlicePair} :
    readPairs ds = .ok ps ↔ List.Forall₂ (fun d p => SlicePair.ofJson d = .ok p) ds ps := by
  induction ds generalizing ps with
  | nil => rw [readPairs, List.forall₂_nil_left_iff, Except.ok.injEq, eq_comm]
  | cons d ds ih =>
    rw [readPairs, List.forall₂_cons_left_iff]
    refine Except.bind_cons_eq_ok_iff.trans (exists_congr fun p => exists_congr fun rest => ?_)
    rw [ih]

theorem exists_getElem?_of_forall₂ {β γ : Type} {R : β → γ → Prop} {xs : List β} {ys : List γ} {x : β}
    (h : List.Forall₂ R xs ys) (hx : xs[i]? = some x) : ∃ y, ys[i]? = some y ∧ R x y := by
  induction h generalizing i with
  | nil => cases hx
  | cons hfirst hrest ih =>
    cases i with
    | zero =>
      cases hx
      exact ⟨_, rfl, hfirst⟩
    | succ i => exact ih hx

theorem forall₂_set {R : Json → SlicePair → Prop} {ds : List Json} {ps : List SlicePair}
    (h : List.Forall₂ R ds ps) {d : Json} {q : SlicePair} (hq : R d q) :
    List.Forall₂ R (ds.set i d) (ps.set i q) := by
  induction h generalizing i with
  | nil => exact .nil
  | cons hfirst hrest ih =>
    cases i with
    | zero => exact .cons hq hrest
    | succ i => exact .cons hfirst ih

/-! ## Fields of records -/

namespace Record

/-- Reads the pairs of a record. -/
def readPairList : Json → Except Error (List SlicePair)
  | .array items => readPairs items
  | _ => .error unreadable

/-- Each field is read by itself and becomes one component of the record. -/
theorem forall_fields {P : FieldReader Record → Prop}
    (project : ∀ f, f.name = projectField → f.Puts readText (fun r s => { r with project := s }) → P f)
    (url : ∀ f, f.name = "url" → f.Puts readText (fun r s => { r with url := s }) → P f)
    (file : ∀ f, f.name = "fileName" → f.Puts readText (fun r s => { r with file := s }) → P f)
    (pairs : ∀ f, f.name = pairsField → f.Puts readPairList (fun r ps => { r with pairs := ps }) → P f) :
    ∀ f ∈ fields, P f := by
  simp only [fields, List.forall_mem_cons]
  refine ⟨project _ rfl fun _ _ => rfl, url _ rfl fun _ _ => rfl, file _ rfl fun _ _ => rfl,
    pairs _ rfl fun r v => ?_, nofun⟩
  cases v <;> rfl

theorem independent_fields : Independent fields where
  names := by decide
  steady := forall_fields (fun _ _ h _ _ _ => h.steady) (fun _ _ h _ _ _ => h.steady)
    (fun _ _ h _ _ _ => h.steady) (fun _ _ h _ _ _ => h.steady)

theorem component_project : Component fields projectField Record.project readText where
  named := by decide
  serves := forall_fields
    (fun _ hf h => h.serves hf fun _ _ => rfl)
    (fun _ hf h => h.serves_other (hf ▸ by decide) fun _ _ => rfl)
    (fun _ hf h => h.serves_other (hf ▸ by decide) fun _ _ => rfl)
    (fun _ hf h => h.serves_other (hf ▸ by decide) fun _ _ => rfl)

theorem component_url : Component fields "url" Record.url readText where
  named := by decide
  serves := forall_fields
    (fun _ hf h => h.serves_other (hf ▸ by decide) fun _ _ => rfl)
    (fun _ hf h => h.serves hf fun _ _ => rfl)
    (fun _ hf h => h.serves_other (hf ▸ by decide) fun _ _ => rfl)
    (fun _ hf h => h.serves_other (hf ▸ by decide) fun _ _ => rfl)

theorem component_file : Component fields "fileName" Record.file readText where
  named := by decide
  serves := forall_fields
    (fun _ hf h => h.serves_other (hf ▸ by decide) fun _ _ => rfl)
    (fun _ hf h => h.serves_other (hf ▸ by decide) fun _ _ => rfl)
    (fun _ hf h => h.serves hf fun _ _ => rfl)
    (fun _ hf h => h.serves_other (hf ▸ by decide) fun _ _ => rfl)

theorem component_pairs : Component fields pairsField Record.pairs readPairList where
  named := by decide
  serves := forall_fields
    (fun _ hf h => h.serves_other (hf ▸ by decide) fun _ _ => rfl)
    (fun _ hf h => h.serves_other (hf ▸ by decide) fun _ _ => rfl)
    (fun _ hf h => h.serves_other (hf ▸ by decide) fun _ _ => rfl)
    (fun _ hf h => h.serves hf fun _ _ => rfl)

/-- The documents of the pairs of a record. -/
def pairDocuments (v : Json) : List Json :=
  match (membersFor fields v).lookup pairsField with
  | some (.array ds) => ds
  | _ => []

/-- Two documents of records that agree but for the trees of a pair. -/
structure OtherTrees (i : Nat) (v w : Json) : Prop where
  others : SameBut fields [pairsField] v w
  listed : ∃ ds d d', (membersFor fields v).lookup pairsField = some (.array ds) ∧ ds[i]? = some d ∧
    SameBut SlicePair.fields SlicePair.treeFields d d' ∧
    (membersFor fields w).lookup pairsField = some (.array (ds.set i d'))

/-- **What a record is**: a structure with a project. -/
theorem ofJson_eq_ok_iff {r : Record} :
    ofJson v = .ok r ↔ ∃ g, readStructure fields ⟨"", "", "", []⟩ v = .ok g ∧ g.value = r ∧
      (membersFor fields v).lookup projectField ≠ none := by
  unfold ofJson
  refine Except.bind_eq_ok_iff.trans (exists_congr fun g => and_congr_right fun hread => ?_)
  have hmembers := ((readStructure_eq_ok_iff independent_fields).mp hread).2
  have hgiven : projectField ∈ g.names ↔ (membersFor fields v).lookup projectField ≠ none := by
    rw [mem_names_of_readMembers independent_fields hmembers, or_iff_right List.not_mem_nil,
      mem_fieldNames_iff, and_iff_left component_project.named, Ne, Json.lookup_eq_none_iff_keys, not_not]
  rw [← hgiven]
  by_cases hproject : projectField ∈ g.names
  · rw [if_pos hproject, and_iff_left hproject]
    exact ⟨Except.ok.inj, congrArg Except.ok⟩
  · rw [if_neg hproject]
    refine iff_of_false ?_ fun h => hproject h.2
    split <;> exact nofun

theorem ofLine_eq_ok_iff {line : String} {r : Record} :
    ofLine line = .ok r ↔ (document (some Json.nestingLimit) line).closed = true ∧
      ofJson (document (some Json.nestingLimit) line).value = .ok r := by
  rw [ofLine]
  refine Except.bind_eq_ok_iff.trans ?_
  constructor
  · rintro ⟨r', hread, hclosed⟩
    split at hclosed
    next h =>
      cases hclosed
      exact ⟨h, hread⟩
    next => cases hclosed
  · rintro ⟨hclosed, hread⟩
    exact ⟨r, hread, if_pos hclosed⟩

/-- The pairs of a record are what its documents of pairs say. -/
theorem readPairs_pairDocuments {r : Record} (h : ofJson v = .ok r) :
    readPairs (pairDocuments v) = .ok r.pairs := by
  obtain ⟨g, hread, rfl, -⟩ := ofJson_eq_ok_iff.mp h
  have hreads := component_pairs.reads independent_fields hread
  rw [pairDocuments]
  cases hlookup : (membersFor fields v).lookup pairsField with
  | none =>
    rw [hlookup] at hreads
    exact congrArg Except.ok (Eq.symm hreads)
  | some x =>
    rw [hlookup] at hreads
    cases x with
    | array ds => exact hreads
    | _ => cases hreads

/-- **A record with other trees can be read** if the record can, and only the pair with these trees
differs. -/
theorem ofJson_of_otherTrees {r : Record} (h : OtherTrees i v w) (hwhole : w.whole = true)
    (hread : ofJson v = .ok r) : ∃ q, ofJson w = .ok { r with pairs := r.pairs.set i q } := by
  obtain ⟨ds, d, d', hv, hd, htrees, hw⟩ := h.listed
  obtain ⟨g, hg, rfl, hproject⟩ := ofJson_eq_ok_iff.mp hread
  have hpairs : readPairs ds = .ok g.value.pairs := by
    have hdocuments := readPairs_pairDocuments hread
    rwa [pairDocuments, hv] at hdocuments
  -- the pair itself
  have hwhole' : d'.whole = true := by
    have hds := whole_of_mem_membersFor hwhole (Json.mem_of_lookup hw)
    refine Json.wholeItems_iff.mp hds d' (List.mem_of_getElem? (i := i) ?_)
    rw [List.getElem?_set_self (List.getElem?_eq_some_iff.mp hd).1]
  obtain ⟨p, -, hp⟩ := exists_getElem?_of_forall₂ (readPairs_eq_ok_iff.mp hpairs) hd
  obtain ⟨q, hq⟩ := SlicePair.exists_ofJson htrees hwhole' hp
  have hset : readPairs (ds.set i d') = .ok (g.value.pairs.set i q) :=
    readPairs_eq_ok_iff.mpr (forall₂_set (readPairs_eq_ok_iff.mp hpairs) hq)
  -- the record around it
  have hnew : ∀ f ∈ fields, f.name ∈ [pairsField] →
      ∀ x, (membersFor fields w).lookup f.name = some x → f.Accepts x :=
    forall_fields (fun _ hf _ hname => absurd (hf ▸ hname) (by decide))
      (fun _ hf _ hname => absurd (hf ▸ hname) (by decide))
      (fun _ hf _ hname => absurd (hf ▸ hname) (by decide))
      fun f hf hputs _ x hx => by
        rw [hf, hw, Option.some.injEq] at hx
        exact hputs.accepts (b := g.value.pairs.set i q) (hx ▸ hset)
  obtain ⟨g', hg'⟩ := h.others.exists_readStructure independent_fields hwhole hg hnew
  refine ⟨q, ofJson_eq_ok_iff.mpr ⟨g', hg', ?_, by rwa [h.others.lookup (by decide)]⟩⟩
  have hsame {name : String} {get : Record → String} (hcomponent : Component fields name get readText)
      (hname : name ∉ [pairsField]) : get g'.value = get g.value := by
    refine (ReadsAs.unique ?_ (hcomponent.reads independent_fields hg))
    rw [← h.others.lookup hname]
    exact hcomponent.reads independent_fields hg'
  have hpairs' : g'.value.pairs = g.value.pairs.set i q := by
    have hreads := component_pairs.reads independent_fields hg'
    rw [hw] at hreads
    exact Except.ok.inj (Eq.trans (Eq.symm hreads) hset)
  show (⟨g'.value.project, g'.value.url, g'.value.file, g'.value.pairs⟩ : Record) = _
  rw [hsame component_project (by decide), hsame component_url (by decide),
    hsame component_file (by decide), hpairs']

/-- **Two lines that only differ in the trees of a pair** are both records, if the first is, and only this
pair differs. -/
theorem ofLine_of_otherTrees {line line' : String} {r : Record} (hread : ofLine line = .ok r)
    (hclosed : (document none line').closed = true)
    (hdepth : (document none line').value.depth ≤ Json.nestingLimit)
    (h : OtherTrees i (document (some Json.nestingLimit) line).value (document none line').value) :
    ∃ q, ofLine line' = .ok { r with pairs := r.pairs.set i q } := by
  have hwhole : (document none line').value.whole = true := Json.whole_readExcerpt_of_closed hclosed
  obtain ⟨q, hq⟩ := ofJson_of_otherTrees h hwhole (ofLine_eq_ok_iff.mp hread).2
  have hlimit : document (some Json.nestingLimit) line' = document none line' :=
    Json.readExcerpt_some_eq hdepth
  refine ⟨q, ofLine_eq_ok_iff.mpr ?_⟩
  rw [hlimit]
  exact ⟨hclosed, hq⟩

end Record

/-! ## Fates -/

/-- What becomes of a pair. -/
inductive Fate (α : Type) where
  | item (x : α)
  | failure (e : Error)
  | nothing

namespace Fate

/-- The fate of a pair that has been worked on. -/
def ofResult : Except Error (Option α) → Fate α
  | .ok (some x) => .item x
  | .ok none => .nothing
  | .error e => .failure e

/-- The item that a pair gives. -/
def item? : Fate α → Option α
  | item x => some x
  | _ => none

/-- The error at which a pair fails. -/
def error? : Fate α → Option Error
  | failure e => some e
  | _ => none

end Fate

namespace Outcome

/-- An outcome accounts for the fates of pairs: it has their items in order, and their errors in order with
the numbers of the pairs. -/
structure Accounts (o : Outcome α) (fates : List (Fate α)) : Prop where
  items : o.items = fates.filterMap Fate.item?
  failures : o.failures = fates.zipIdx.filterMap fun x => x.1.error?.map fun e => (x.2, e)

/-- Two outcomes account for every pair, and agree but for one pair.  Exactly the silent pairs come to
nothing. -/
def AgreeBut (i count : Nat) (silent silent' : Nat → Prop) (o o' : Outcome α) : Prop :=
  o.project = o'.project ∧ ∃ fates fates' : List (Fate α),
    (o.Accounts fates ∧ fates.length = count ∧ ∀ j, fates[j]? = some .nothing ↔ silent j) ∧
    (o'.Accounts fates' ∧ fates'.length = count ∧ ∀ j, fates'[j]? = some .nothing ↔ silent' j) ∧
    ∀ j, j ≠ i → fates[j]? = fates'[j]?

end Outcome

namespace Record

/-- What becomes of the pairs of a record. -/
def fates (work : SlicePair → Except Error (Option α)) (r : Record) : List (Fate α) :=
  r.pairs.map fun p => .ofResult (work p)

/-- The items of a record are those of its pairs that do not fail and give something. -/
theorem items_eachPair (work : SlicePair → Except Error (Option α)) (r : Record) :
    (r.eachPair work).items = r.pairs.filterMap fun p => (work p).toOption.join := by
  have hfst : r.pairs.filterMap (fun p => (work p).toOption.join) =
      r.pairs.zipIdx.filterMap fun x => (work x.1).toOption.join := by
    conv_lhs => rw [← List.zipIdx_map_fst 0 r.pairs, List.filterMap_map]
    rfl
  rw [hfst, Record.eachPair]
  dsimp only
  rw [List.mapIdx_eq_zipIdx_map, List.filterMap_map]
  refine List.filterMap_congr fun x _ => ?_
  rw [Function.comp_apply]
  dsimp only
  cases work x.1 <;> rfl

/-- **Every pair is accounted for.** -/
theorem accounts_eachPair (work : SlicePair → Except Error (Option α)) (r : Record) :
    (r.eachPair work).Accounts (r.fates work) where
  items := by
    rw [items_eachPair, fates, List.filterMap_map]
    refine List.filterMap_congr fun p _ => ?_
    rw [Function.comp_apply]
    rcases work p with e | _ | item <;> rfl
  failures := by
    rw [eachPair]
    dsimp only
    rw [fates, List.mapIdx_eq_zipIdx_map, List.filterMap_map, List.zipIdx_map, List.filterMap_map]
    refine List.filterMap_congr fun x _ => ?_
    rw [Function.comp_apply, Function.comp_apply]
    dsimp only [Prod.map]
    rcases work x.1 with e | _ | item <;> rfl

theorem getElem?_fates_eq_nothing_iff {work : SlicePair → Except Error (Option α)} {r : Record} :
    (r.fates work)[j]? = some .nothing ↔ ∃ p, r.pairs[j]? = some p ∧ work p = .ok none := by
  rw [fates, List.getElem?_map, Option.map_eq_some_iff]
  refine exists_congr fun p => and_congr_right fun _ => ?_
  rcases work p with e | _ | item
  · exact iff_of_false nofun nofun
  · exact iff_of_true rfl rfl
  · exact iff_of_false nofun nofun

/-- **Work on the other pairs is the same.** -/
theorem agreeBut_eachPair (work : SlicePair → Except Error (Option α)) (r : Record) (q : SlicePair)
    {silent silent' : Nat → Prop}
    (hsilent : ∀ j, (∃ p, r.pairs[j]? = some p ∧ work p = .ok none) ↔ silent j)
    (hsilent' : ∀ j, (∃ p, (r.pairs.set i q)[j]? = some p ∧ work p = .ok none) ↔ silent' j) :
    Outcome.AgreeBut i r.pairs.length silent silent' (r.eachPair work)
      (Record.eachPair work { r with pairs := r.pairs.set i q }) := by
  refine ⟨rfl, r.fates work, Record.fates work { r with pairs := r.pairs.set i q },
    ⟨accounts_eachPair work r, List.length_map _, fun j => ?_⟩,
    ⟨accounts_eachPair work _, ?_, fun j => ?_⟩, fun j hj => ?_⟩
  · exact getElem?_fates_eq_nothing_iff.trans (hsilent j)
  · rw [fates, List.length_map, List.length_set]
  · exact getElem?_fates_eq_nothing_iff.trans (hsilent' j)
  · rw [fates, fates, List.getElem?_map, List.getElem?_map, List.getElem?_set_ne hj.symm]

end Record

/-- Work that gives something unless it fails comes to nothing for no pair. -/
theorem map_some_ne_ok_none {x : Except Error α} : x.map some ≠ .ok none := by
  cases x <;> exact nofun

/-- Only a pair without a tree before the commit is passed over when sequences are abstracted. -/
theorem SlicePair.abstracted_eq_ok_none_iff {p : SlicePair} {settings : AbstractionSettings}
    {vocabulary : Option Vocabulary} :
    p.abstracted settings vocabulary = .ok none ↔ p.beforeTree = none := by
  unfold abstracted before?
  cases hbefore : p.beforeTree with
  | none => exact iff_of_true rfl rfl
  | some d =>
    refine iff_of_false (fun habstracted => ?_) (Option.some_ne_none d)
    obtain ⟨o, ho, hrest⟩ := Except.bind_eq_ok_iff.mp habstracted
    obtain ⟨before, -, rfl⟩ := Except.map_eq_ok_iff.mp ho
    obtain ⟨after, -, hrest⟩ := Except.bind_eq_ok_iff.mp hrest
    obtain ⟨buggy, -, hrest⟩ := Except.bind_eq_ok_iff.mp hrest
    obtain ⟨correct, -, hrest⟩ := Except.bind_eq_ok_iff.mp hrest
    cases hrest

/-- The pairs that abstraction passes over, as the document of a record tells. -/
def Record.LacksBeforeAt (v : Json) (j : Nat) : Prop :=
  ∃ d, (Record.pairDocuments v)[j]? = some d ∧ SlicePair.LacksBefore d

theorem Record.silent_iff {r : Record} (h : Record.ofJson v = .ok r) {settings : AbstractionSettings}
    {vocabulary : Option Vocabulary} :
    (∃ p, r.pairs[j]? = some p ∧ p.abstracted settings vocabulary = .ok none) ↔
      Record.LacksBeforeAt v j := by
  have hpairs := readPairs_eq_ok_iff.mp (Record.readPairs_pairDocuments h)
  constructor
  · rintro ⟨p, hp, hnone⟩
    obtain ⟨d, hd, hread⟩ := exists_getElem?_of_forall₂ hpairs.flip hp
    exact ⟨d, hd, (SlicePair.beforeTree_eq_none_iff hread).mp (SlicePair.abstracted_eq_ok_none_iff.mp hnone)⟩
  · rintro ⟨d, hd, hlacks⟩
    obtain ⟨p, hp, hread⟩ := exists_getElem?_of_forall₂ hpairs hd
    exact ⟨p, hp, SlicePair.abstracted_eq_ok_none_iff.mpr
      ((SlicePair.beforeTree_eq_none_iff hread).mpr hlacks)⟩

/-- **Failures stay inside their pair.**  If a line of a corpus is a record, it still is one with other
documents for the trees of a pair, whatever these are, as long as the line is JSON that does not nest too
deep; what is passed over in it only has to follow the grammar.  In each of the three kinds of work every
pair has one fate in the outcome, its fate is the same for both lines unless it is this pair, and only
abstraction comes to nothing for a pair, namely if its document has no tree before the commit. -/
theorem Record.outcomes_of_otherTrees {line line' : String} {r : Record}
    (hread : Record.ofLine line = .ok r) (hclosed : (document none line').closed = true)
    (hdepth : (document none line').value.depth ≤ Json.nestingLimit)
    (h : OtherTrees i (document (some Json.nestingLimit) line).value (document none line').value) :
    ∃ r', Record.ofLine line' = .ok r' ∧
      Outcome.AgreeBut i r.pairs.length (fun _ => False) (fun _ => False) r.annotated r'.annotated ∧
      (∀ settings vocabulary, Outcome.AgreeBut i r.pairs.length
        (LacksBeforeAt (document (some Json.nestingLimit) line).value)
        (LacksBeforeAt (document none line').value)
        (r.abstracted settings vocabulary) (r'.abstracted settings vocabulary)) ∧
      Outcome.AgreeBut i r.pairs.length (fun _ => False) (fun _ => False) r.mutants r'.mutants := by
  obtain ⟨q, hq⟩ := ofLine_of_otherTrees hread hclosed hdepth h
  have hsilent {β : Type} (work : SlicePair → Except Error β) (ps : List SlicePair) (j : Nat) :
      (∃ p, ps[j]? = some p ∧ (work p).map some = .ok none) ↔ False :=
    iff_of_false (fun ⟨_, _, hnone⟩ => map_some_ne_ok_none hnone) id
  have hv := (ofLine_eq_ok_iff.mp hread).2
  have hw := (ofLine_eq_ok_iff.mp hq).2
  rw [document, Json.readExcerpt_some_eq hdepth] at hw
  refine ⟨_, hq, ?_, fun settings vocabulary => ?_, ?_⟩
  · exact agreeBut_eachPair _ r q (hsilent _ _) (hsilent _ _)
  · exact agreeBut_eachPair _ r q (fun _ => silent_iff hv) (fun _ => silent_iff hw)
  · exact agreeBut_eachPair _ r q (hsilent _ _) (hsilent _ _)

/-! ## Two lines -/

/-- The documents of a pair with a name on both sides. -/
def namedPair : List (String × Json) :=
  [("before-ast", .object [("type", .string "Identifier"), ("name", .string "x")]),
    ("after-ast", .object [("type", .string "Identifier"), ("name", .string "y")])]

/-- A record with two pairs.  The second one has no trees, but a note, which is passed over although it is
no text. -/
def notedPair : String :=
  "[\"p\",\"\",\"\",[\x7b\"before-ast\":\x7b\"type\":\"Identifier\",\"name\":\"x\"\x7d," ++
    "\"after-ast\":\x7b\"type\":\"Identifier\",\"name\":\"y\"\x7d\x7d,\x7b\"note\":\"\\ud800\"\x7d]]"

/-- The same record with trees in the second pair that are none. -/
def brokenTrees : String :=
  "[\"p\",\"\",\"\",[\x7b\"before-ast\":\x7b\"type\":\"Identifier\",\"name\":\"x\"\x7d," ++
    "\"after-ast\":\x7b\"type\":\"Identifier\",\"name\":\"y\"\x7d\x7d,\x7b\"note\":\"\\ud800\"," ++
    "\"before-ast\":[],\"after-ast\":\"\"\x7d]]"

/-- The document of a record with the first pair and another one. -/
def pairsDocument (second : List (String × Json)) : Json :=
  .array [.string "p", .string "", .string "", .array [.object namedPair, .object second]]

set_option maxRecDepth 4000 in
theorem document_notedPair : Record.document (some Json.nestingLimit) notedPair =
    ⟨pairsDocument [("note", .null)], true⟩ := rfl

set_option maxRecDepth 4000 in
theorem document_brokenTrees : Record.document none brokenTrees =
    ⟨pairsDocument [("note", .null), ("before-ast", .array []), ("after-ast", .string "")], true⟩ := rfl

/-- A record with the first pair and another one. -/
def pairsRecord (second : SlicePair) : Record :=
  ⟨"p", "", "", [⟨none, none, some (.object [("name", .string "x"), ("type", .string "Identifier")]),
    some (.object [("name", .string "y"), ("type", .string "Identifier")]), .other, []⟩, second]⟩

theorem ofLine_notedPair : Record.ofLine notedPair = .ok (pairsRecord SlicePair.empty) := by
  rw [Record.ofLine, document_notedPair]
  rfl

theorem otherTrees_brokenTrees :
    Record.OtherTrees 1 (Record.document (some Json.nestingLimit) notedPair).value
      (Record.document none brokenTrees).value := by
  rw [document_notedPair, document_brokenTrees]
  refine ⟨.array fun j hj => ?_, [.object namedPair, .object [("note", .null)]],
    .object [("note", .null)], .object [("note", .null), ("before-ast", .array []), ("after-ast", .string "")],
    rfl, rfl, .object rfl (by decide), rfl⟩
  rcases j with _ | _ | _ | _ | j
  · rfl
  · rfl
  · rfl
  · exact absurd (List.mem_singleton_self _) (hj _ rfl)
  · rfl

/-- The broken trees spoil their own pair, and the pair beside it gives its items. -/
theorem Record.outcomes_of_brokenTrees : ∃ r', Record.ofLine brokenTrees = .ok r' ∧
    Outcome.AgreeBut 1 2 (fun _ => False) (fun _ => False) (pairsRecord SlicePair.empty).annotated r'.annotated ∧
    (∀ settings vocabulary, Outcome.AgreeBut 1 2
      (LacksBeforeAt (document (some Json.nestingLimit) notedPair).value)
      (LacksBeforeAt (document none brokenTrees).value)
      ((pairsRecord SlicePair.empty).abstracted settings vocabulary) (r'.abstracted settings vocabulary)) ∧
    Outcome.AgreeBut 1 2 (fun _ => False) (fun _ => False) (pairsRecord SlicePair.empty).mutants r'.mutants ∧
    r'.annotated.items = [⟨.nominal, ["x"], ["y"]⟩] ∧
    (r'.abstracted ⟨defaultPlaceholders, true⟩ none).items = [⟨.error, ["x"], ["y"]⟩] ∧
    r'.mutants.items = [⟨.nominal, ["y"], []⟩] ∧
    r'.annotated.failures.map Prod.fst = [1] := by
  have hclosed : (document none brokenTrees).closed = true := by rw [document_brokenTrees]
  have hdepth : (document none brokenTrees).value.depth ≤ Json.nestingLimit := by
    rw [document_brokenTrees]
    decide
  have hline : ofLine brokenTrees = .ok (pairsRecord
      ⟨none, none, some (.array []), some (.string ""), .other, []⟩) := by
    rw [ofLine, document, Json.readExcerpt_some_eq hdepth, ← document, document_brokenTrees]
    rfl
  obtain ⟨r', hr', hannotated, habstracted, hmutants⟩ :=
    Record.outcomes_of_otherTrees ofLine_notedPair hclosed hdepth otherTrees_brokenTrees
  cases Except.ok.inj (hr'.symm.trans hline)
  exact ⟨_, hr', hannotated, habstracted, hmutants, rfl, rfl, rfl, rfl⟩

end RepairCorpus
