import RepairCorpus.Corpus.Record
import RepairCorpus.Proofs.Json.Excerpts
import RepairCorpus.Proofs.Json.Members
import RepairCorpus.Proofs.Results

/-!
# Structures read field by field

Records and pairs are objects with named fields or lists of the fields' values.  A list is read as the
object would be that has the fields' names in front of its items, so that only members have to be looked at
(`membersFor`, `readStructure_eq_ok_iff`).

The fields of a structure do not look at each other: whether a value is accepted for one of them does not
depend on what has been read before (`Independent`), and each is put into a component of its own
(`Component`).  So reading succeeds if and only if every field is given at most once and with a value that
it accepts, and the component of a field is what its value says.

* `exists_readMembers_iff`: **what it takes to read a structure**.
* `Component.reads`: **what a component says** in the structure that has been read.
* `SameBut`: documents that agree but for some fields; `SameBut.exists_readStructure`: **if one of them can
  be read, so can the other**, as long as these fields accept their values.
-/

namespace RepairCorpus

open Json (keys keys_cons lookup_eq_none_iff_keys lookup_cons_of_ne)

variable {α β : Type} {fields fs : List (FieldReader α)} {f : FieldReader α} {start : α} {g g' : Given α}
  {ms : List (String × Json)} {vs : List Json} {v w : Json} {key name : String}

/-! ## Fields -/

/-- Whether a value is accepted for a field, whatever has been read before. -/
def FieldReader.Accepts (f : FieldReader α) (v : Json) : Prop := ∀ x, ∃ y, f.read x v = .ok y

/-- A field that reads its value by itself and then puts it into the structure. -/
def FieldReader.Puts (f : FieldReader α) (read : Json → Except Error β) (set : α → β → α) : Prop :=
  ∀ x v, f.read x v = (read v).bind fun b => .ok (set x b)

namespace FieldReader.Puts

variable {read : Json → Except Error β} {set : α → β → α} {x y : α}

theorem accepts {b : β} (h : f.Puts read set) (hread : read v = .ok b) : f.Accepts v :=
  fun x => ⟨set x b, (h x v).trans (Except.bind_eq_ok_iff.mpr ⟨b, hread, rfl⟩)⟩

theorem steady (h : f.Puts read set) (hread : f.read x v = .ok y) : f.Accepts v := by
  rw [h] at hread
  obtain ⟨b, hb, -⟩ := Except.bind_eq_ok_iff.mp hread
  exact h.accepts hb

end FieldReader.Puts

/-- Fields with different names, whose values are judged regardless of what has been read before. -/
structure Independent (fields : List (FieldReader α)) : Prop where
  names : (fields.map FieldReader.name).Nodup
  steady : ∀ f ∈ fields, ∀ x y v, f.read x v = .ok y → f.Accepts v

/-- The names of fields among the keys of members, in order. -/
def fieldNames (fields : List (FieldReader α)) (ms : List (String × Json)) : List String :=
  (keys ms).filter fun key => key ∈ fields.map FieldReader.name

theorem fieldNames_cons_of_mem (h : f ∈ fields) :
    fieldNames fields ((f.name, v) :: ms) = f.name :: fieldNames fields ms :=
  List.filter_cons_of_pos (decide_eq_true (List.mem_map_of_mem h))

theorem fieldNames_cons_of_notMem (h : key ∉ fields.map FieldReader.name) :
    fieldNames fields ((key, v) :: ms) = fieldNames fields ms :=
  List.filter_cons_of_neg (by simpa using h)

theorem count_fieldNames (h : key ∈ fields.map FieldReader.name) :
    (fieldNames fields ms).count key = (keys ms).count key :=
  List.count_filter (p := fun key => key ∈ fields.map FieldReader.name) (decide_eq_true h)

theorem mem_fieldNames_iff :
    key ∈ fieldNames fields ms ↔ key ∈ keys ms ∧ key ∈ fields.map FieldReader.name := by
  rw [fieldNames, List.mem_filter, decide_eq_true_iff]

/-- A field that is given once is found. -/
theorem lookup_of_mem_field (honce : (fieldNames fields ms).Nodup)
    (hfield : key ∈ fields.map FieldReader.name) (h : (key, v) ∈ ms) : ms.lookup key = some v := by
  induction ms with
  | nil => exact absurd h List.not_mem_nil
  | cons m ms ih =>
    obtain ⟨key', v'⟩ := m
    by_cases hkey : key = key'
    · subst hkey
      obtain ⟨f, hf, rfl⟩ := List.mem_map.mp hfield
      rw [fieldNames_cons_of_mem hf] at honce
      rcases List.mem_cons.mp h with heq | hagain
      · cases heq
        exact List.lookup_cons_self
      · have hmem : f.name ∈ fieldNames fields ms :=
          mem_fieldNames_iff.mpr ⟨List.mem_map_of_mem hagain, hfield⟩
        exact absurd hmem (List.nodup_cons.mp honce).1
    · have hmem : (key, v) ∈ ms := by
        refine (List.mem_cons.mp h).resolve_left fun heq => hkey ?_
        exact congrArg Prod.fst heq
      have hrest : (fieldNames fields ms).Nodup := by
        rw [fieldNames, keys_cons, List.filter_cons] at honce
        split at honce
        next => exact (List.nodup_cons.mp honce).2
        next => exact honce
      rw [lookup_cons_of_ne hkey]
      exact ih hrest hmem

/-- The text does not break off in a member that is no field. -/
def Unbroken (fields : List (FieldReader α)) (ms : List (String × Json)) : Prop :=
  ∀ m ∈ ms, m.1 ∉ fields.map FieldReader.name → m.2.isMissing = false

theorem unbroken_cons_of_mem (h : key ∈ fields.map FieldReader.name) :
    Unbroken fields ((key, v) :: ms) ↔ Unbroken fields ms :=
  List.forall_mem_cons.trans (and_iff_right fun hkey => absurd h hkey)

theorem unbroken_cons_of_notMem (h : key ∉ fields.map FieldReader.name) :
    Unbroken fields ((key, v) :: ms) ↔ v.isMissing = false ∧ Unbroken fields ms :=
  List.forall_mem_cons.trans (and_congr_left fun _ => forall_prop_of_true h)

theorem find?_eq_some (hnames : (fields.map FieldReader.name).Nodup) (h : f ∈ fields) :
    fields.find? (fun f' => f'.name == f.name) = some f :=
  List.find?_eq_some_of_unique h (beq_self_eq_true _) fun _ hf' heq =>
    List.inj_on_of_nodup_map hnames hf' h (beq_iff_eq.mp heq)

/-- A member that is no field is passed over, unless the text breaks off in it. -/
theorem readMembers_cons_eq_ok_iff_of_notMem (h : key ∉ fields.map FieldReader.name) :
    readMembers fields g ((key, v) :: ms) = .ok g' ↔
      v.isMissing = false ∧ readMembers fields g ms = .ok g' := by
  have hnone : fields.find? (fun f => f.name == key) = none := by
    refine List.find?_eq_none.mpr fun f hf heq => h ?_
    exact beq_iff_eq.mp heq ▸ List.mem_map_of_mem hf
  rw [readMembers, hnone]
  dsimp only
  cases v.isMissing with
  | false => exact (and_iff_right rfl).symm
  | true => exact iff_of_false nofun nofun

/-- A field is read if it is new. -/
theorem readMembers_cons_eq_ok_iff (hnames : (fields.map FieldReader.name).Nodup) (h : f ∈ fields) :
    readMembers fields g ((f.name, v) :: ms) = .ok g' ↔
      f.name ∉ g.names ∧ ∃ x, f.read g.value v = .ok x ∧
        readMembers fields ⟨x, f.name :: g.names⟩ ms = .ok g' := by
  rw [readMembers, find?_eq_some hnames h]
  dsimp only
  by_cases hseen : f.name ∈ g.names
  · rw [if_pos hseen]
    exact iff_of_false nofun fun hread => hread.1 hseen
  · rw [if_neg hseen]
    exact Except.bind_eq_ok_iff.trans (and_iff_right hseen).symm

/-- **What it takes to read a structure**: every field is new and has a value that it accepts, and the
text does not break off in between. -/
theorem exists_readMembers_iff (hfields : Independent fields) :
    (∃ g', readMembers fields g ms = .ok g') ↔
      Unbroken fields ms ∧ (∀ f ∈ fields, ∀ v, (f.name, v) ∈ ms → f.Accepts v) ∧
        (fieldNames fields ms).Nodup ∧ ∀ key ∈ fieldNames fields ms, key ∉ g.names := by
  induction ms generalizing g with
  | nil =>
    refine iff_of_true ⟨g, rfl⟩ ⟨?_, ?_, List.nodup_nil, ?_⟩
    · exact fun m hm => absurd hm List.not_mem_nil
    · exact fun f _ v hv => absurd hv List.not_mem_nil
    · exact fun key hkey => absurd hkey List.not_mem_nil
  | cons m ms ih =>
    obtain ⟨key, v⟩ := m
    by_cases hkey : key ∈ fields.map FieldReader.name
    · obtain ⟨f, hf, rfl⟩ := List.mem_map.mp hkey
      simp only [readMembers_cons_eq_ok_iff hfields.names hf, unbroken_cons_of_mem hkey,
        fieldNames_cons_of_mem hf, List.nodup_cons, List.forall_mem_cons]
      constructor
      · rintro ⟨g', hnew, x, hx, hrest⟩
        obtain ⟨hunbroken, haccepts, hnodup, hfresh⟩ := ih.mp ⟨g', hrest⟩
        refine ⟨hunbroken, fun f' hf' v' hv' => ?_, ⟨fun hagain => hfresh _ hagain (.head _), hnodup⟩, hnew,
          fun key hkey hseen => hfresh key hkey (.tail _ hseen)⟩
        rcases List.mem_cons.mp hv' with heq | hv'
        · obtain ⟨hname, rfl⟩ := Prod.mk.inj heq
          obtain rfl : f' = f := List.inj_on_of_nodup_map hfields.names hf' hf hname
          exact hfields.steady f' hf' _ _ _ hx
        · exact haccepts f' hf' v' hv'
      · rintro ⟨hunbroken, haccepts, ⟨honce, hnodup⟩, hnew, hfresh⟩
        obtain ⟨x, hx⟩ := haccepts f hf v (.head _) g.value
        have hfresh' : ∀ key ∈ fieldNames fields ms, key ∉ f.name :: g.names := fun key hkey =>
          List.disjoint_cons_right.mpr ⟨honce, hfresh⟩ hkey
        obtain ⟨g', hrest⟩ := (ih (g := ⟨x, f.name :: g.names⟩)).mpr
          ⟨hunbroken, fun f' hf' v' hv' => haccepts f' hf' v' (.tail _ hv'), hnodup, hfresh'⟩
        exact ⟨g', hnew, x, hx, hrest⟩
    · simp only [readMembers_cons_eq_ok_iff_of_notMem hkey, unbroken_cons_of_notMem hkey,
        fieldNames_cons_of_notMem hkey, exists_and_left, ih, and_assoc]
      refine and_congr_right fun _ => and_congr_right fun _ => and_congr_left fun _ =>
        forall₂_congr fun f hf => forall_congr' fun v' => ?_
      rw [List.mem_cons, or_iff_right]
      intro heq
      exact hkey ((Prod.mk.inj heq).1 ▸ List.mem_map_of_mem hf)

/-- The names that have been given. -/
theorem mem_names_of_readMembers (hfields : Independent fields)
    (h : readMembers fields g ms = .ok g') :
    key ∈ g'.names ↔ key ∈ g.names ∨ key ∈ fieldNames fields ms := by
  induction ms generalizing g with
  | nil =>
    cases h
    exact (or_iff_left List.not_mem_nil).symm
  | cons m ms ih =>
    obtain ⟨key', v⟩ := m
    by_cases hkey : key' ∈ fields.map FieldReader.name
    · obtain ⟨f, hf, rfl⟩ := List.mem_map.mp hkey
      obtain ⟨-, x, -, hrest⟩ := (readMembers_cons_eq_ok_iff hfields.names hf).mp h
      rw [ih hrest, fieldNames_cons_of_mem hf, List.mem_cons, List.mem_cons, or_assoc, or_left_comm]
    · obtain ⟨-, hrest⟩ := (readMembers_cons_eq_ok_iff_of_notMem hkey).mp h
      rw [ih hrest, fieldNames_cons_of_notMem hkey]

/-! ## Components -/

/-- What comes of a component: it stays as it was if its field is not given. -/
def ReadsAs (read : Json → Except Error β) (before : β) : Option Json → β → Prop
  | none, after => after = before
  | some v, after => read v = .ok after

theorem ReadsAs.unique {read : Json → Except Error β} {before after after' : β} {o : Option Json}
    (h : ReadsAs read before o after) (h' : ReadsAs read before o after') : after = after' := by
  cases o with
  | none => exact Eq.trans h (Eq.symm h')
  | some v => exact Except.ok.inj (Eq.trans (Eq.symm h) h')

/-- What a field does to the component `get`, which belongs to the field with a name and is read by
`read`. -/
structure FieldReader.Serves (f : FieldReader α) (name : String) (get : α → β)
    (read : Json → Except Error β) : Prop where
  sets : f.name = name → ∀ x y v, f.read x v = .ok y → read v = .ok (get y)
  keeps : f.name ≠ name → ∀ x y v, f.read x v = .ok y → get y = get x

theorem FieldReader.Puts.serves {read : Json → Except Error β} {set : α → β → α} {get : α → β}
    (h : f.Puts read set) (hname : f.name = name) (hget : ∀ x b, get (set x b) = b) :
    f.Serves name get read where
  sets _ x y v hread := by
    rw [h] at hread
    obtain ⟨b, hb, hy⟩ := Except.bind_eq_ok_iff.mp hread
    cases hy
    rw [hget, hb]
  keeps hne := absurd hname hne

theorem FieldReader.Puts.serves_other {γ : Type} {read : Json → Except Error γ} {set : α → γ → α}
    {get : α → β} {read' : Json → Except Error β} (h : f.Puts read set) (hname : f.name ≠ name)
    (hget : ∀ x b, get (set x b) = get x) : f.Serves name get read' where
  sets heq := absurd heq hname
  keeps _ x y v hread := by
    rw [h] at hread
    obtain ⟨b, -, hy⟩ := Except.bind_eq_ok_iff.mp hread
    cases hy
    exact hget x b

/-- `Component fields name get read` holds if the field with a name is the component `get` of the
structure, which is read by `read`. -/
structure Component (fields : List (FieldReader α)) (name : String) (get : α → β)
    (read : Json → Except Error β) : Prop where
  named : name ∈ fields.map FieldReader.name
  serves : ∀ f ∈ fields, f.Serves name get read

/-- **What a component says** in a structure that has been read. -/
theorem Component.reads_of_readMembers {get : α → β} {read : Json → Except Error β}
    (hcomponent : Component fields name get read) (hfields : Independent fields)
    (h : readMembers fields g ms = .ok g') :
    ReadsAs read (get g.value) (ms.lookup name) (get g'.value) := by
  induction ms generalizing g with
  | nil =>
    cases h
    exact rfl
  | cons m ms ih =>
    obtain ⟨key, v⟩ := m
    by_cases hkey : key ∈ fields.map FieldReader.name
    · obtain ⟨f, hf, rfl⟩ := List.mem_map.mp hkey
      obtain ⟨-, x, hx, hrest⟩ := (readMembers_cons_eq_ok_iff hfields.names hf).mp h
      have htail := ih hrest
      by_cases hname : f.name = name
      · subst hname
        -- the field cannot be met again
        have hnone : ms.lookup f.name = none := by
          refine lookup_eq_none_iff_keys.mpr fun hagain => ?_
          obtain ⟨-, -, -, hfresh⟩ := (exists_readMembers_iff hfields).mp ⟨g', hrest⟩
          exact hfresh f.name (mem_fieldNames_iff.mpr ⟨hagain, hkey⟩) (.head _)
        rw [hnone] at htail
        have hget : get g'.value = get x := htail
        rw [List.lookup_cons_self, ReadsAs, hget]
        exact (hcomponent.serves f hf).sets rfl _ _ _ hx
      · rw [lookup_cons_of_ne (Ne.symm hname), ← (hcomponent.serves f hf).keeps hname _ _ _ hx]
        exact htail
    · have hne : name ≠ key := fun heq => hkey (heq ▸ hcomponent.named)
      rw [lookup_cons_of_ne hne]
      exact ih ((readMembers_cons_eq_ok_iff_of_notMem hkey).mp h).2

/-! ## Two forms -/

/-- The members that a document of a structure has: those of an object, or the items of a list behind the
names of the fields. -/
def membersFor (fields : List (FieldReader α)) : Json → List (String × Json)
  | .object ms => ms
  | .array vs => (fields.map FieldReader.name).zip vs
  | _ => []

/-- Whether a document has one of the two forms of a structure. -/
def Shaped (fields : List (FieldReader α)) : Json → Prop
  | .object _ => True
  | .array vs => vs.length ≤ fields.length
  | _ => False

theorem readItems_eq_ok_iff (hnames : (fields.map FieldReader.name).Nodup)
    (hfs : (fs.map FieldReader.name).Nodup) (hmem : ∀ f ∈ fs, f ∈ fields)
    (hfresh : ∀ f ∈ fs, f.name ∉ g.names) :
    readItems g fs vs = .ok g' ↔
      vs.length ≤ fs.length ∧ readMembers fields g ((fs.map FieldReader.name).zip vs) = .ok g' := by
  induction fs generalizing g vs with
  | nil =>
    cases vs with
    | nil => exact (and_iff_right (Nat.le_refl 0)).symm
    | cons v vs => exact iff_of_false nofun fun h => absurd h.1 (Nat.not_succ_le_zero _)
  | cons f fs ih =>
    cases vs with
    | nil => exact (and_iff_right (Nat.zero_le _)).symm
    | cons v vs =>
      obtain ⟨hnew, hfs⟩ := List.nodup_cons.mp hfs
      have hf : f ∈ fields := hmem f (.head _)
      have hrest (x : α) : ∀ f' ∈ fs, f'.name ∉ (⟨x, f.name :: g.names⟩ : Given α).names := by
        intro f' hf' hseen
        rcases List.mem_cons.mp hseen with heq | hseen
        · exact hnew (heq ▸ List.mem_map_of_mem hf')
        · exact hfresh f' (.tail _ hf') hseen
      rw [List.map_cons, List.zip_cons_cons, readMembers_cons_eq_ok_iff hnames hf, readItems,
        List.length_cons, List.length_cons, Nat.succ_le_succ_iff]
      refine Except.bind_eq_ok_iff.trans ?_
      simp only [ih hfs (fun f' hf' => hmem f' (.tail _ hf')) (hrest _)]
      constructor
      · rintro ⟨x, hx, hlength, hread⟩
        exact ⟨hlength, hfresh f (.head _), x, hx, hread⟩
      · rintro ⟨hlength, -, x, hx, hread⟩
        exact ⟨x, hx, hlength, hread⟩

/-- **Both forms are read as members.** -/
theorem readStructure_eq_ok_iff (hfields : Independent fields) :
    readStructure fields start v = .ok g ↔
      Shaped fields v ∧ readMembers fields ⟨start, []⟩ (membersFor fields v) = .ok g := by
  cases v with
  | object ms => exact (and_iff_right trivial).symm
  | array vs =>
    exact readItems_eq_ok_iff hfields.names hfields.names (fun _ hf => hf) fun _ _ => List.not_mem_nil
  | _ => exact iff_of_false nofun And.left

/-- What a component says in a structure that has been read. -/
theorem Component.reads {get : α → β} {read : Json → Except Error β}
    (hcomponent : Component fields name get read) (hfields : Independent fields)
    (h : readStructure fields start v = .ok g) :
    ReadsAs read (get start) ((membersFor fields v).lookup name) (get g.value) :=
  hcomponent.reads_of_readMembers hfields ((readStructure_eq_ok_iff hfields).mp h).2

/-- The value of a field is as whole as the document. -/
theorem whole_of_mem_membersFor (hwhole : v.whole = true) (h : (key, w) ∈ membersFor fields v) :
    w.whole = true := by
  cases v with
  | object ms => exact Json.wholeMembers_iff.mp hwhole (key, w) h
  | array vs => exact Json.wholeItems_iff.mp hwhole w (List.of_mem_zip h).2
  | _ => exact absurd h List.not_mem_nil

/-! ## Documents that agree but for some fields -/

/-- Two documents of a structure agree but for some fields.  Of an object these fields are taken out, put
in or given another value; the other members stay as they are and in order.  In a list these fields have
their places. -/
inductive SameBut (fields : List (FieldReader α)) (names : List String) : Json → Json → Prop where
  | object {ms ms' : List (String × Json)}
      (others : (ms'.filter fun m => m.1 ∉ names) = ms.filter fun m => m.1 ∉ names)
      (once : ((keys ms').filter fun key => key ∈ names).Nodup) :
      SameBut fields names (.object ms) (.object ms')
  | array {vs vs' : List Json}
      (others : ∀ j : Nat, (∀ f : FieldReader α, fields[j]? = some f → f.name ∉ names) → vs'[j]? = vs[j]?) :
      SameBut fields names (.array vs) (.array vs')

theorem filter_keys (p : String → Bool) (ms : List (String × Json)) :
    (keys ms).filter p = keys (ms.filter fun m => p m.1) := List.filter_map

theorem sublist_keys_zip (ns : List String) (vs : List Json) : (keys (ns.zip vs)).Sublist ns := by
  induction ns generalizing vs with
  | nil => exact .slnil
  | cons n ns ih =>
    cases vs with
    | nil => exact List.nil_sublist _
    | cons v vs => exact (ih vs).cons_cons n

theorem lookup_zip (ns : List String) (vs : List Json) (key : String) :
    (ns.zip vs).lookup key = if key ∈ ns then vs[ns.idxOf key]? else none := by
  induction ns generalizing vs with
  | nil => rfl
  | cons n ns ih =>
    cases vs with
    | nil => simp
    | cons v vs =>
      rw [List.zip_cons_cons]
      by_cases hkey : key = n
      · subst hkey
        rw [List.lookup_cons_self, if_pos (.head _), List.idxOf_cons_self]
        rfl
      · rw [lookup_cons_of_ne hkey, ih, List.idxOf_cons_ne _ (Ne.symm hkey)]
        simp only [List.mem_cons, hkey, false_or, List.getElem?_cons_succ]

namespace SameBut

variable {names : List String}

theorem shaped (h : SameBut fields names v w) (hv : Shaped fields v) : Shaped fields w := by
  cases h with
  | object others once => trivial
  | array others =>
    rename_i vs vs'
    have hnone : vs'[fields.length]? = vs[fields.length]? := by
      refine others fields.length fun f hf => ?_
      rw [List.getElem?_eq_none (Nat.le_refl _)] at hf
      cases hf
    rw [List.getElem?_eq_none hv] at hnone
    exact List.getElem?_eq_none_iff.mp hnone

/-- Lists agree under the names of the other fields. -/
theorem lookup_array {vs vs' : List Json} (hkey : key ∉ names)
    (others : ∀ j : Nat, (∀ f : FieldReader α, fields[j]? = some f → f.name ∉ names) → vs'[j]? = vs[j]?) :
    ((fields.map FieldReader.name).zip vs').lookup key =
      ((fields.map FieldReader.name).zip vs).lookup key := by
  rw [lookup_zip, lookup_zip]
  split
  next hfield =>
    refine others _ fun f hf hname => hkey ?_
    have hat : (fields.map FieldReader.name)[(fields.map FieldReader.name).idxOf key]? = some key := by
      rw [List.getElem?_eq_getElem (List.idxOf_lt_length_of_mem hfield), List.getElem_idxOf]
    rw [List.getElem?_map, hf, Option.map_some, Option.some.injEq] at hat
    exact hat ▸ hname
  next => rfl

theorem nodup_keys_zip (hnames : (fields.map FieldReader.name).Nodup) (vs : List Json) :
    (keys ((fields.map FieldReader.name).zip vs)).Nodup :=
  hnames.sublist (sublist_keys_zip _ vs)

/-- The other fields have the same values. -/
theorem lookup (h : SameBut fields names v w) (hkey : key ∉ names) :
    (membersFor fields w).lookup key = (membersFor fields v).lookup key := by
  cases h with
  | object others once =>
    have hfilter (ms : List (String × Json)) :
        (ms.filter fun m => m.1 ∉ names).lookup key = ms.lookup key := by
      induction ms with
      | nil => rfl
      | cons m ms ih =>
        by_cases hm : m.1 ∈ names
        · have hne : key ≠ m.1 := fun heq => hkey (heq ▸ hm)
          rw [List.filter_cons_of_neg (by simpa using hm), ih, lookup_cons_of_ne hne]
        · rw [List.filter_cons_of_pos (by simpa using hm), List.lookup_cons, List.lookup_cons, ih]
    rw [membersFor, membersFor, ← hfilter, others, hfilter]
  | array others => exact lookup_array hkey others

/-- A member of another field was there before. -/
theorem mem (hnames : (fields.map FieldReader.name).Nodup) (h : SameBut fields names v w)
    (hkey : key ∉ names) {x : Json} (hx : (key, x) ∈ membersFor fields w) :
    (key, x) ∈ membersFor fields v := by
  cases h with
  | object others once =>
    rename_i ms ms'
    have hmem : (key, x) ∈ ms'.filter fun m => m.1 ∉ names := List.mem_filter.mpr ⟨hx, decide_eq_true hkey⟩
    rw [others] at hmem
    exact (List.mem_filter.mp hmem).1
  | array others =>
    have hlookup := Json.lookup_of_mem (nodup_keys_zip hnames _) hx
    rw [lookup_array hkey others] at hlookup
    exact Json.mem_of_lookup hlookup

/-- No field is given twice. -/
theorem nodup_fieldNames (hnames : (fields.map FieldReader.name).Nodup)
    (h : SameBut fields names v w) (hv : (fieldNames fields (membersFor fields v)).Nodup) :
    (fieldNames fields (membersFor fields w)).Nodup := by
  cases h with
  | object others once =>
    rename_i ms ms'
    have hkeys : ((keys ms').filter fun key => key ∉ names) = (keys ms).filter fun key => key ∉ names := by
      rw [filter_keys, filter_keys, others]
    rw [List.nodup_iff_count_le_one] at hv once ⊢
    intro key
    by_cases hfield : key ∈ fields.map FieldReader.name
    · rw [count_fieldNames hfield]
      by_cases hkey : key ∈ names
      · rw [← List.count_filter (p := fun key => key ∈ names) (decide_eq_true hkey)]
        exact once key
      · have hcount := hv key
        rw [count_fieldNames hfield] at hcount
        rwa [membersFor, ← List.count_filter (p := fun key => key ∉ names) (decide_eq_true hkey), hkeys,
          List.count_filter (p := fun key => key ∉ names) (decide_eq_true hkey)]
    · rw [List.count_eq_zero_of_not_mem]
      · exact Nat.zero_le 1
      · exact fun hmem => hfield (mem_fieldNames_iff.mp hmem).2
  | array others => exact (nodup_keys_zip hnames _).filter _

/-- **If one of the documents can be read, so can the other**, as long as the fields in which they differ
accept their values. -/
theorem exists_readStructure (hfields : Independent fields) (h : SameBut fields names v w)
    (hw : w.whole = true) (hv : readStructure fields start v = .ok g)
    (hnew : ∀ f ∈ fields, f.name ∈ names →
      ∀ x, (membersFor fields w).lookup f.name = some x → f.Accepts x) :
    ∃ g', readStructure fields start w = .ok g' := by
  obtain ⟨hshaped, hread⟩ := (readStructure_eq_ok_iff hfields).mp hv
  obtain ⟨-, haccepts, hnodup, -⟩ := (exists_readMembers_iff hfields).mp ⟨g, hread⟩
  have hunbroken : Unbroken fields (membersFor fields w) := fun m hm _ =>
    Json.isMissing_of_whole (whole_of_mem_membersFor hw hm)
  have honce := h.nodup_fieldNames hfields.names hnodup
  obtain ⟨g', hread'⟩ : ∃ g', readMembers fields ⟨start, []⟩ (membersFor fields w) = .ok g' := by
    refine (exists_readMembers_iff hfields).mpr
      ⟨hunbroken, fun f hf x hx => ?_, honce, fun _ _ => List.not_mem_nil⟩
    by_cases hname : f.name ∈ names
    · exact hnew f hf hname x (lookup_of_mem_field honce (List.mem_map_of_mem hf) hx)
    · exact haccepts f hf x (h.mem hfields.names hname hx)
  exact ⟨g', (readStructure_eq_ok_iff hfields).mpr ⟨h.shaped hshaped, hread'⟩⟩

end SameBut

end RepairCorpus
