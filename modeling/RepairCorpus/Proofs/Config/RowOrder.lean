import Mathlib.Data.List.Nodup
import Mathlib.Data.List.Pairwise
import Mathlib.Data.List.Perm.Basic
import Mathlib.Data.String.Basic
import RepairCorpus.Config.Draft
import RepairCorpus.Config.Notation

/-!
# The order of rows

The rows of a table may come in any order.  A draft is filled in row by row, so that this has to be shown:
what is put in one place of a draft leaves all others as they are, and therefore two places may be filled in
either order (`Place.Apart`).  Sections are places whose settings are filled in themselves, and they are apart
because the places of one are apart from those of the other.

Texts by names are kept in ascending order, whichever comes first.

* `OrderFree`: steps for rows that do not depend on their order, and `OrderFree.foldlM_eq`.
* `Commute`, `Place.Apart`: what may be done in either order.
* `fill_eq_of_reordered`: reordered settings are filled in alike.
* `Draft.ofSetting?_reordered`: **reordered settings are read alike**.
-/

namespace RepairCorpus.Config

/-- `ReorderedRow row row'` holds if two rows have the same name and settings that are the same up to the order of
rows. -/
def ReorderedRow (row row' : String × Setting) : Prop := row.1 = row'.1 ∧ Reordered row.2 row'.2

section Rows

variable {rows rows' mid : List (String × Setting)} {s s' : Setting}

/-- The rows of reordered tables can be put in the same order. -/
theorem exists_forall₂_perm (hnames : (rows'.map Prod.fst).Perm (rows.map Prod.fst))
    (hvalues : ∀ name s s', (name, s) ∈ rows → (name, s') ∈ rows' → Reordered s s') :
    ∃ mid, List.Forall₂ ReorderedRow rows mid ∧ mid.Perm rows' := by
  have hown : List.Forall₂ (fun name (row : String × Setting) => name = row.1) (rows'.map Prod.fst) rows' :=
    List.forall₂_map_left_iff.mpr (List.forall₂_same.mpr fun _ _ => rfl)
  obtain ⟨mid, hmid, hperm⟩ := List.perm_comp_forall₂ hnames.symm hown
  obtain ⟨hlength, hmid⟩ := List.forall₂_iff_zip.mp (List.forall₂_map_left_iff.mp hmid)
  refine ⟨mid, List.forall₂_iff_zip.mpr ⟨hlength, ?_⟩, hperm⟩
  rintro ⟨name, s⟩ ⟨name', s'⟩ hzip
  obtain rfl : name = name' := hmid hzip
  obtain ⟨hrow, hrow'⟩ := List.of_mem_zip hzip
  exact ⟨rfl, hvalues name s s' hrow (hperm.mem_iff.mp hrow')⟩

theorem exists_of_mem_right {α β : Type} {R : α → β → Prop} {xs : List α} {ys : List β}
    (h : List.Forall₂ R xs ys) {y : β} (hy : y ∈ ys) : ∃ x ∈ xs, R x y := by
  induction h with
  | nil => cases hy
  | @cons x y' xs ys hxy _ ih =>
    rcases List.mem_cons.mp hy with rfl | hy
    · exact ⟨x, .head _, hxy⟩
    · obtain ⟨x', hx', hxy'⟩ := ih hy
      exact ⟨x', .tail _ hx', hxy'⟩

/-- Rows that are put in another order, and reordered themselves, make a reordered table. -/
theorem Reordered.of_forall₂ (hnodup : (rows.map Prod.fst).Nodup) (hperm : mid.Perm rows)
    (h : List.Forall₂ ReorderedRow mid rows') :
    Reordered (.table rows) (.table rows') := by
  have hnames : mid.map Prod.fst = rows'.map Prod.fst :=
    List.forall₂_eq_eq_eq ▸ List.forall₂_map_left_iff.mpr (List.forall₂_map_right_iff.mpr (h.imp fun _ _ h => h.1))
  refine .table hnodup (hnames ▸ hperm.map Prod.fst) fun name s s' hrow hrow' => ?_
  obtain ⟨⟨name₀, s₀⟩, hrow₀, heq, hreordered⟩ := exists_of_mem_right h hrow'
  have hsame : (name₀, s₀) = (name, s) := List.inj_on_of_nodup_map hnodup (hperm.mem_iff.mp hrow₀) hrow heq
  cases hsame
  exact hreordered

end Rows

/-! ## Rows one by one -/

section Steps

variable {β : Type} {step : β → String × Setting → Option β} {rows rows' mid : List (String × Setting)}

/-- `OrderFree step` holds if steps for rows with different names may be made in either order, and if reordered rows
make the same step. -/
structure OrderFree (step : β → String × Setting → Option β) : Prop where
  commute : ∀ a b : String × Setting, a.1 ≠ b.1 → ∀ x, (step x a).bind (step · b) = (step x b).bind (step · a)
  steady : ∀ row row', ReorderedRow row row' → ∀ x, step x row' = step x row

namespace OrderFree

theorem foldlM_perm (h : OrderFree step) (hnodup : (rows.map Prod.fst).Nodup) (hperm : rows.Perm rows') (x : β) :
    rows.foldlM step x = rows'.foldlM step x := by
  induction hperm generalizing x with
  | nil => rfl
  | cons row _ ih =>
    rw [List.foldlM_cons, List.foldlM_cons]
    exact congrArg _ (funext fun y => ih (List.nodup_cons.mp hnodup).2 y)
  | swap a b rows =>
    have hne : b.1 ≠ a.1 := fun heq => (List.nodup_cons.mp hnodup).1 (heq ▸ .head _)
    have hswap := congrArg (Option.bind · fun y => rows.foldlM step y) (h.commute b a hne x)
    simp only [Option.bind_assoc] at hswap
    exact hswap
  | trans hfirst _ ih ih' => exact (ih hnodup x).trans (ih' ((hfirst.map Prod.fst).nodup_iff.mp hnodup) x)

theorem foldlM_forall₂ (h : OrderFree step) (hrows : List.Forall₂ ReorderedRow rows mid) (x : β) :
    mid.foldlM step x = rows.foldlM step x := by
  induction hrows generalizing x with
  | nil => rfl
  | cons hrow _ ih =>
    rw [List.foldlM_cons, List.foldlM_cons, h.steady _ _ hrow]
    exact congrArg _ (funext ih)

/-- **Rows that are taken one by one** may be reordered. -/
theorem foldlM_eq (h : OrderFree step) (hnodup : (rows.map Prod.fst).Nodup)
    (hnames : (rows'.map Prod.fst).Perm (rows.map Prod.fst))
    (hvalues : ∀ name s s', (name, s) ∈ rows → (name, s') ∈ rows' → Reordered s s') (x : β) :
    rows'.foldlM step x = rows.foldlM step x := by
  obtain ⟨mid, hmid, hperm⟩ := exists_forall₂_perm hnames hvalues
  have hmidnames : (mid.map Prod.fst).Nodup := (hperm.map Prod.fst).nodup_iff.mpr (hnames.nodup_iff.mpr hnodup)
  calc rows'.foldlM step x = mid.foldlM step x := (h.foldlM_perm hmidnames hperm x).symm
    _ = rows.foldlM step x := h.foldlM_forall₂ hmid x

end OrderFree

end Steps

/-! ## What may be done in either order -/

/-- Two changes to drafts that may be made in either order. -/
def Commute (f g : Draft → Option Draft) : Prop := ∀ d, (f d).bind g = (g d).bind f

namespace Commute

variable {f f' g : Draft → Option Draft}

theorem symm (h : Commute f g) : Commute g f := fun d => (h d).symm

theorem none_left (g : Draft → Option Draft) : Commute (fun _ => none) g := fun d =>
  (Option.bind_fun_none (g d)).symm

theorem some_left (g : Draft → Option Draft) : Commute some g := fun d => (Option.bind_fun_some (g d)).symm

theorem bind_left (h : Commute f g) (h' : Commute f' g) : Commute (fun d => (f d).bind f') g := by
  intro d
  calc ((f d).bind f').bind g = (f d).bind fun d => (f' d).bind g := Option.bind_assoc ..
    _ = (f d).bind fun d => (g d).bind f' := congrArg _ (funext h')
    _ = ((f d).bind g).bind f' := (Option.bind_assoc ..).symm
    _ = ((g d).bind f).bind f' := by rw [h d]
    _ = (g d).bind fun d => (f d).bind f' := Option.bind_assoc ..

end Commute

namespace Place

/-- Two places that may be filled in either order. -/
def Apart (p q : Place) : Prop := ∀ s t, Commute (p.fill · s) (q.fill · t)

/-- A place where reordered settings are filled in alike. -/
def Steady (p : Place) : Prop := ∀ d s s', Reordered s s' → p.fill d s' = p.fill d s

/-- Places for values that are put in different parts of a draft. -/
theorem apart_of_read {β γ : Type} {name name' : String} {read : Setting → Option β}
    {read' : Setting → Option γ} {put : Draft → β → Draft} {put' : Draft → γ → Draft}
    (h : ∀ d x y, put' (put d x) y = put (put' d y) x) :
    Apart ⟨name, fun d s => (read s).map (put d)⟩ ⟨name', fun d s => (read' s).map (put' d)⟩ := by
  intro s t d
  cases hs : read s <;> cases ht : read' t <;> simp [hs, ht, h]

/-- A place for a value that is read from reordered settings alike. -/
theorem steady_of_read {β : Type} {name : String} {read : Setting → Option β} {put : Draft → β → Draft}
    (h : ∀ s s', Reordered s s' → read s' = read s) : Steady ⟨name, fun d s => (read s).map (put d)⟩ :=
  fun d s s' hreordered => congrArg (Option.map (put d)) (h s s' hreordered)

end Place

/-! ## Sections -/

section Sections

variable {places places' : List Place} {rows : List (String × Setting)} {g : Draft → Option Draft}
  {surplus : Bool}

theorem commute_fillRows (h : ∀ p ∈ places, ∀ s, Commute (p.fill · s) g) (used : List String)
    (rows : List (String × Setting)) : Commute (fillRows places used · rows) g := by
  induction rows generalizing used with
  | nil => exact Commute.some_left g
  | cons row rows ih =>
    obtain ⟨name, s⟩ := row
    simp only [fillRows]
    cases hfind : places.find? fun p => p.name == name with
    | none => exact ih used
    | some p =>
      cases hused : used.contains name with
      | true => exact Commute.none_left g
      | false => exact (h p (List.mem_of_find?_eq_some hfind) s).bind_left (ih _)

theorem commute_fillItems (h : ∀ p ∈ places, ∀ s, Commute (p.fill · s) g) (items : List Setting) :
    Commute (fillItems surplus · places items) g := by
  induction items generalizing places with
  | nil => cases places <;> exact Commute.some_left g
  | cons s items ih =>
    cases places with
    | nil =>
      cases surplus with
      | true => exact Commute.some_left g
      | false => exact Commute.none_left g
    | cons p places =>
      obtain ⟨hp, hplaces⟩ := List.forall_mem_cons.mp h
      exact (hp s).bind_left (ih hplaces)

theorem commute_fill (h : ∀ p ∈ places, ∀ s, Commute (p.fill · s) g) (s : Setting) :
    Commute (fill surplus places · s) g := by
  cases s with
  | list items => exact commute_fillItems h items
  | table rows => exact commute_fillRows h [] rows
  | scalar value =>
    simp only [fill, Setting.rows?]
    cases value.blank with
    | true => exact commute_fillRows h [] []
    | false => exact Commute.none_left g

/-- **Sections are apart** if their places are. -/
theorem apart_fill {name name' : String} (h : ∀ p ∈ places, ∀ q ∈ places', p.Apart q) :
    Place.Apart ⟨name, fill surplus places⟩ ⟨name', fill surplus places'⟩ := fun s t =>
  commute_fill (fun p hp s => (commute_fill (fun q hq t => (h p hp q hq s t).symm) t).symm) s

/-- What one row does to a draft. -/
def fillRow (places : List Place) (d : Draft) (row : String × Setting) : Option Draft :=
  match places.find? fun p => p.name == row.1 with
  | none => some d
  | some p => p.fill d row.2

theorem foldlM_fillRow {used : List String} (hnodup : (rows.map Prod.fst).Nodup)
    (hfree : ∀ name ∈ rows.map Prod.fst, name ∉ used) (d : Draft) :
    rows.foldlM (fillRow places) d = fillRows places used d rows := by
  induction rows generalizing used d with
  | nil => rfl
  | cons row rows ih =>
    obtain ⟨name, s⟩ := row
    obtain ⟨hname, hnodup⟩ := List.nodup_cons.mp hnodup
    obtain ⟨hnew, hfree⟩ := List.forall_mem_cons.mp hfree
    rw [List.foldlM_cons, fillRow, fillRows]
    cases places.find? fun p => p.name == name with
    | none => exact ih hnodup hfree d
    | some p =>
      have hunused : used.contains name = false := by
        rw [List.contains_eq_mem, decide_eq_false_iff_not]
        exact hnew
      have hfree' : ∀ name' ∈ rows.map Prod.fst, name' ∉ name :: used := fun name' hmem hused =>
        (List.mem_cons.mp hused).elim (fun heq => hname (heq ▸ hmem)) (hfree name' hmem)
      simp only [hunused, Bool.false_eq_true, if_false]
      exact congrArg _ (funext fun d => ih hnodup hfree' d)

theorem name_of_find? {name : String} {p : Place} (h : (places.find? fun p => p.name == name) = some p) :
    p.name = name :=
  beq_iff_eq.mp (List.find?_some (p := fun p : Place => p.name == name) h)

/-- **Filling in row by row** does not depend on the order of rows where the places are steady and apart. -/
theorem orderFree_fillRow (hapart : places.Pairwise Place.Apart) (hsteady : ∀ p ∈ places, p.Steady) :
    OrderFree (fillRow places) where
  commute a b hne d := by
    simp only [fillRow]
    cases ha : places.find? fun p => p.name == a.1 with
    | none => exact (Option.bind_fun_some _).symm
    | some p =>
      cases hb : places.find? fun p => p.name == b.1 with
      | none => exact Option.bind_fun_some _
      | some q =>
        have hpq : p ≠ q := by
          rintro rfl
          exact hne ((name_of_find? ha).symm.trans (name_of_find? hb))
        have hsymm : Std.Symm Place.Apart := ⟨fun _ _ h s t => (h t s).symm⟩
        exact hapart.forall (List.mem_of_find?_eq_some ha) (List.mem_of_find?_eq_some hb) hpq a.2 b.2 d
  steady row row' hrow d := by
    obtain ⟨hname, hsetting⟩ := hrow
    rw [fillRow, fillRow, ← hname]
    cases hfind : places.find? fun p => p.name == row.1 with
    | none => rfl
    | some p => exact hsteady p (List.mem_of_find?_eq_some hfind) d row.2 row'.2 hsetting

/-- **Reordered settings are filled in alike.** -/
theorem fill_eq_of_reordered (hapart : places.Pairwise Place.Apart) (hsteady : ∀ p ∈ places, p.Steady)
    {s s' : Setting} (h : Reordered s s') (d : Draft) : fill surplus places d s' = fill surplus places d s := by
  cases h with
  | scalar value => rfl
  | table nodup names values =>
    have hrows := (orderFree_fillRow hapart hsteady).foldlM_eq nodup names values d
    rwa [foldlM_fillRow (names.nodup_iff.mpr nodup) fun _ _ => List.not_mem_nil,
      foldlM_fillRow nodup fun _ _ => List.not_mem_nil] at hrows

end Sections

/-! ## Placeholders -/

section Placeholders

variable {rows : List (String × Setting)}

/-- Rows with different names may be put in a table in either order. -/
theorem putRow_comm {name name' : String} (hne : name ≠ name') (text text' : String)
    (rows : List (String × String)) :
    putRow name text (putRow name' text' rows) = putRow name' text' (putRow name text rows) := by
  induction rows with
  | nil =>
    rcases lt_or_gt_of_ne hne with hlt | hlt <;> simp [putRow, hne, hne.symm, hlt, hlt.not_gt]
  | cons row rows ih =>
    obtain ⟨key, old⟩ := row
    -- where the two names stand to the first one tells which of the rows comes first
    rcases lt_trichotomy name key with h | h | h <;> rcases lt_trichotomy name' key with h' | h' | h'
    · rcases lt_or_gt_of_ne hne with hlt | hlt <;>
        simp [putRow, hne, hne.symm, h.ne, h'.ne, h, h', hlt, hlt.not_gt]
    · subst h'
      simp [putRow, hne, hne.symm, h, h.not_gt]
    · simp [putRow, hne.symm, h.ne, h'.ne', h, h'.not_gt, (h.trans h').not_gt]
    · subst h
      simp [putRow, hne, hne.symm, h', h'.not_gt]
    · exact absurd (h.trans h'.symm) hne
    · simp [putRow, h, h'.ne', h'.not_gt]
    · simp [putRow, hne, h.ne', h'.ne, h', h.not_gt, (h'.trans h).not_gt]
    · simp [putRow, h', h.ne', h.not_gt]
    · simp [putRow, h.ne', h'.ne', h.not_gt, h'.not_gt, ih]

/-- What one row does to a table of texts. -/
def putTextRow (read : List (String × String)) (row : String × Setting) : Option (List (String × String)) :=
  row.2.text?.map fun text => putRow row.1 text read

theorem foldlM_putTextRow (read : List (String × String)) : rows.foldlM putTextRow read = textRows read rows := by
  induction rows generalizing read with
  | nil => rfl
  | cons row rows ih =>
    rw [List.foldlM_cons, putTextRow, textRows]
    cases row.2.text? with
    | none => rfl
    | some text => exact ih _

theorem text?_eq_of_reordered {s s' : Setting} (h : Reordered s s') : s'.text? = s.text? := by
  cases h <;> rfl

theorem orderFree_putTextRow : OrderFree putTextRow where
  commute a b hne read := by
    cases ha : a.2.text? <;> cases hb : b.2.text? <;> simp [putTextRow, ha, hb, putRow_comm hne]
  steady row row' hrow read := by
    obtain ⟨hname, hsetting⟩ := hrow
    rw [putTextRow, putTextRow, hname, text?_eq_of_reordered hsetting]

/-- **Texts by names** are read alike from reordered settings. -/
theorem texts_eq_of_reordered {s s' : Setting} (h : Reordered s s') :
    s'.rows?.bind (textRows []) = s.rows?.bind (textRows []) := by
  cases h with
  | scalar value => rfl
  | table nodup names values =>
    have hrows := orderFree_putTextRow.foldlM_eq nodup names values []
    rwa [foldlM_putTextRow, foldlM_putTextRow] at hrows

end Placeholders

/-! ## Drafts -/

section Drafts

variable {surplus : Bool}

theorem steady_numberPlace (name : String) (put : Draft → Nat → Draft) : (numberPlace name put).Steady :=
  Place.steady_of_read fun s s' h => by cases h <;> rfl

/-- The places of all sections. -/
def leafPlaces : List Place := vocabularyPlaces ++ abstractionPlaces ++ datasetPlaces

theorem apart_leafPlaces : leafPlaces.Pairwise Place.Apart := by
  simp only [leafPlaces, vocabularyPlaces, abstractionPlaces, datasetPlaces, numberPlace, List.cons_append,
    List.nil_append, List.pairwise_cons, List.forall_mem_cons, List.Pairwise.nil, and_true]
  -- each of the places puts what it reads in a field of its own
  and_intros <;> first
    | exact Place.apart_of_read fun _ _ _ => rfl
    | exact List.forall_mem_nil _

theorem steady_leafPlaces : ∀ p ∈ leafPlaces, p.Steady := by
  simp only [leafPlaces, vocabularyPlaces, abstractionPlaces, datasetPlaces, List.cons_append,
    List.nil_append, List.forall_mem_cons]
  refine ⟨steady_numberPlace _ _, Place.steady_of_read fun s s' h => ?_, Place.steady_of_read fun s s' h => ?_,
    steady_numberPlace _ _, steady_numberPlace _ _, steady_numberPlace _ _, steady_numberPlace _ _,
    List.forall_mem_nil _⟩
  · cases h <;> rfl
  · exact texts_eq_of_reordered h

theorem apart_sections : (sections surplus).Pairwise Place.Apart := by
  obtain ⟨hleft, -, hdataset⟩ := List.pairwise_append.mp apart_leafPlaces
  obtain ⟨-, -, habstraction⟩ := List.pairwise_append.mp hleft
  refine .cons (List.forall_mem_cons.mpr ⟨?_, List.forall_mem_singleton.mpr ?_⟩) (List.pairwise_pair.mpr ?_)
  · exact apart_fill habstraction
  · exact apart_fill fun p hp => hdataset p (List.mem_append_left _ hp)
  · exact apart_fill fun p hp => hdataset p (List.mem_append_right _ hp)

theorem steady_sections : ∀ p ∈ sections surplus, p.Steady := by
  obtain ⟨hleft, hdataset, -⟩ := List.pairwise_append.mp apart_leafPlaces
  obtain ⟨hvocabulary, habstraction, -⟩ := List.pairwise_append.mp hleft
  obtain ⟨hleft, hdataset'⟩ := List.forall_mem_append.mp steady_leafPlaces
  obtain ⟨hvocabulary', habstraction'⟩ := List.forall_mem_append.mp hleft
  simp only [sections, List.forall_mem_cons]
  exact ⟨fun d s s' h => fill_eq_of_reordered hvocabulary hvocabulary' h d,
    fun d s s' h => fill_eq_of_reordered habstraction habstraction' h d,
    fun d s s' h => fill_eq_of_reordered hdataset hdataset' h d, List.forall_mem_nil _⟩

/-- **Reordered settings are read alike.** -/
theorem Draft.ofSetting?_reordered {s s' : Setting} (h : Reordered s s') (start : Draft) :
    Draft.ofSetting? surplus start s' = Draft.ofSetting? surplus start s :=
  fill_eq_of_reordered apart_sections steady_sections h start

end Drafts

end RepairCorpus.Config
