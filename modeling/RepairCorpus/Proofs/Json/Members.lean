import Mathlib.Data.List.Nodup
import RepairCorpus.Json.Value

/-!
# Members of objects

An object is a list of members, but what it means to a reader who asks for keys is a map.  As long
as no key is given twice the two views agree, and what is said of an object by `List.lookup` does
not depend on the order of its members.

* `Json.induction`: what holds of a value whenever it holds of its items and members holds of all.
* `Json.every`: a test of a value and of everything in it; `Json.unrepeated` is the test that no
  object gives a key twice.
* `Json.lookup_sortedMembers`: sorting members changes no lookup, apart from sorting the values too.
* `Json.unrepeated_sorted`: and it repeats no key.
-/

namespace RepairCorpus.Json

/-! ## Looking up -/

section Lookup

variable {α : Type} {key k : String} {ms : List (String × α)} {v w : α}

/-- The keys of members, in order. -/
def keys (ms : List (String × α)) : List String := ms.map Prod.fst

@[simp] theorem keys_nil : keys ([] : List (String × α)) = [] := rfl

@[simp] theorem keys_cons (m : String × α) : keys (m :: ms) = m.1 :: keys ms := rfl

theorem lookup_cons_of_ne (h : key ≠ k) : ((k, v) :: ms).lookup key = ms.lookup key := by
  rw [List.lookup_cons, beq_false_of_ne h]

theorem lookup_eq_none_iff_keys : ms.lookup key = none ↔ key ∉ keys ms := by
  rw [List.lookup_eq_none_iff, keys, List.mem_map]
  constructor
  · rintro h ⟨m, hm, rfl⟩
    exact absurd (h m hm) (by simp)
  · intro h m hm
    exact bne_iff_ne.mpr fun hkey => h ⟨m, hm, hkey.symm⟩

theorem isSome_lookup_iff_keys : (ms.lookup key).isSome = true ↔ key ∈ keys ms := by
  rw [Option.isSome_iff_ne_none, Ne, lookup_eq_none_iff_keys, not_not]

theorem mem_of_lookup (h : ms.lookup key = some v) : (key, v) ∈ ms := by
  induction ms with
  | nil => cases h
  | cons m ms ih =>
    obtain ⟨k, w⟩ := m
    by_cases hkey : key = k
    · subst hkey
      rw [List.lookup_cons_self] at h
      cases h
      exact List.mem_cons_self
    · rw [lookup_cons_of_ne hkey] at h
      exact List.mem_cons_of_mem _ (ih h)

/-- Without repeated keys every member is found. -/
theorem lookup_of_mem (hkeys : (keys ms).Nodup) (h : (key, v) ∈ ms) : ms.lookup key = some v := by
  induction ms with
  | nil => cases h
  | cons m ms ih =>
    obtain ⟨k, w⟩ := m
    obtain ⟨hfirst, hrest⟩ := List.nodup_cons.mp hkeys
    rcases List.mem_cons.mp h with heq | hmem
    · cases heq
      exact List.lookup_cons_self
    · have hne : key ≠ k := by
        rintro rfl
        exact hfirst (List.mem_map.mpr ⟨(key, v), hmem, rfl⟩)
      rw [lookup_cons_of_ne hne]
      exact ih hrest hmem

theorem keys_filterMap_sublist {β : Type} (g : α → Option β) (ms : List (String × α)) :
    (keys (ms.filterMap fun m => (g m.2).map fun v => (m.1, v))).Sublist (keys ms) := by
  induction ms with
  | nil => exact List.Sublist.refl []
  | cons m ms ih =>
    rw [List.filterMap_cons, keys_cons]
    cases g m.2 with
    | none => exact ih.cons m.1
    | some v => exact ih.cons_cons m.1

/-- Looking up among members whose values have been replaced or dropped. -/
theorem lookup_filterMap {β : Type} (g : α → Option β) (hkeys : (keys ms).Nodup) (key : String) :
    (ms.filterMap fun m => (g m.2).map fun v => (m.1, v)).lookup key = (ms.lookup key).bind g := by
  induction ms with
  | nil => rfl
  | cons m ms ih =>
    obtain ⟨k, v⟩ := m
    obtain ⟨hfirst, hrest⟩ := List.nodup_cons.mp hkeys
    rw [List.filterMap_cons]
    by_cases hkey : key = k
    · subst hkey
      rw [List.lookup_cons_self, Option.bind_some]
      cases hv : g v with
      | none =>
        have hnone : ms.lookup key = none := lookup_eq_none_iff_keys.mpr hfirst
        rw [Option.map_none, ih hrest, hnone, Option.bind_none]
      | some w => rw [Option.map_some, List.lookup_cons_self]
    · rw [lookup_cons_of_ne hkey, ← ih hrest]
      cases g v with
      | none => rw [Option.map_none]
      | some w => rw [Option.map_some, lookup_cons_of_ne hkey]

theorem lookup_map_values {β : Type} (g : α → β) (ms : List (String × α)) (key : String) :
    (ms.map fun m => (m.1, g m.2)).lookup key = (ms.lookup key).map g := by
  induction ms with
  | nil => rfl
  | cons m ms ih =>
    obtain ⟨k, v⟩ := m
    rw [List.map_cons]
    by_cases hkey : key = k
    · subst hkey
      rw [List.lookup_cons_self, List.lookup_cons_self, Option.map_some]
    · rw [lookup_cons_of_ne hkey, lookup_cons_of_ne hkey, ih]

end Lookup

/-! ## Induction -/

theorem sizeOf_lt_of_mem_items {items : List Json} {v : Json} (h : v ∈ items) :
    sizeOf v < sizeOf (Json.array items) := by
  have := List.sizeOf_lt_of_mem h
  simp only [array.sizeOf_spec]
  omega

theorem sizeOf_lt_of_mem_members {members : List (String × Json)} {m : String × Json}
    (h : m ∈ members) : sizeOf m.2 < sizeOf (Json.object members) := by
  have := List.sizeOf_lt_of_mem h
  obtain ⟨key, v⟩ := m
  simp only [object.sizeOf_spec, Prod.mk.sizeOf_spec] at this ⊢
  omega

/-- Whether a value has no items and no members. -/
def isLeaf : Json → Bool
  | .array _ => false
  | .object _ => false
  | _ => true

/-- A property that holds of arrays and objects whenever it holds of all in them, and that holds of
all other values, holds of every value. -/
theorem induction {motive : Json → Prop}
    (array : ∀ items, (∀ v ∈ items, motive v) → motive (.array items))
    (object : ∀ members, (∀ m ∈ members, motive m.2) → motive (.object members))
    (leaf : ∀ v, v.isLeaf = true → motive v) (v : Json) : motive v :=
  match v with
  | .array items => array items fun v h =>
      have : sizeOf v < sizeOf (Json.array items) := sizeOf_lt_of_mem_items h
      induction array object leaf v
  | .object members => object members fun m h =>
      have : sizeOf m.2 < sizeOf (Json.object members) := sizeOf_lt_of_mem_members h
      induction array object leaf m.2
  | .null => leaf .null rfl
  | .bool b => leaf (.bool b) rfl
  | .number n => leaf (.number n) rfl
  | .string s => leaf (.string s) rfl
  | .missing => leaf .missing rfl
termination_by sizeOf v
decreasing_by all_goals assumption

theorem sorted_of_isLeaf {v : Json} (h : v.isLeaf = true) : v.sorted = v := by
  cases v with
  | array items => cases h
  | object members => cases h
  | _ => simp [sorted]

/-! ## Tests of everything in a value -/

mutual

/-- Whether a value and everything in it passes a test. -/
def every (test : Json → Bool) : Json → Bool
  | .array items => test (.array items) && everyItem test items
  | .object members => test (.object members) && everyMember test members
  | v => test v

/-- Whether all items and everything in them pass a test. -/
def everyItem (test : Json → Bool) : List Json → Bool
  | [] => true
  | v :: vs => v.every test && everyItem test vs

/-- Whether the values of all members and everything in them pass a test. -/
def everyMember (test : Json → Bool) : List (String × Json) → Bool
  | [] => true
  | (_, v) :: ms => v.every test && everyMember test ms

end

section Every

variable {test : Json → Bool}

theorem everyItem_iff {items : List Json} :
    everyItem test items = true ↔ ∀ v ∈ items, v.every test = true := by
  induction items with
  | nil => simp [everyItem]
  | cons v vs ih => rw [everyItem, Bool.and_eq_true, ih, List.forall_mem_cons]

theorem everyMember_iff {members : List (String × Json)} :
    everyMember test members = true ↔ ∀ m ∈ members, m.2.every test = true := by
  induction members with
  | nil => simp [everyMember]
  | cons m ms ih =>
    obtain ⟨key, v⟩ := m
    rw [everyMember, Bool.and_eq_true, ih, List.forall_mem_cons]

theorem every_array {items : List Json} : (Json.array items).every test = true ↔
    test (.array items) = true ∧ ∀ v ∈ items, v.every test = true := by
  rw [every, Bool.and_eq_true, everyItem_iff]

theorem every_object {members : List (String × Json)} : (Json.object members).every test = true ↔
    test (.object members) = true ∧ ∀ m ∈ members, m.2.every test = true := by
  rw [every, Bool.and_eq_true, everyMember_iff]

end Every

/-- Whether a value is no object that gives a key twice. -/
def namesOnce : Json → Bool
  | .object members => decide (keys members).Nodup
  | _ => true

/-- Whether no object in a value gives a key twice. -/
def unrepeated (v : Json) : Bool := v.every namesOnce

theorem unrepeated_array {items : List Json} :
    (Json.array items).unrepeated = true ↔ ∀ v ∈ items, v.unrepeated = true := by
  rw [unrepeated, every_array]
  exact and_iff_right rfl

theorem unrepeated_object {members : List (String × Json)} :
    (Json.object members).unrepeated = true ↔
      (keys members).Nodup ∧ ∀ m ∈ members, m.2.unrepeated = true := by
  rw [unrepeated, every_object, namesOnce, decide_eq_true_eq]
  rfl

theorem unrepeated_of_lookup {members : List (String × Json)} {key : String} {v : Json}
    (h : (Json.object members).unrepeated = true) (hv : members.lookup key = some v) :
    v.unrepeated = true :=
  (unrepeated_object.mp h).2 _ (mem_of_lookup hv)

/-! ## Sorting -/

theorem sortedItems_eq (items : List Json) : sortedItems items = items.map sorted := by
  induction items with
  | nil => rw [sortedItems, List.map_nil]
  | cons v vs ih => rw [sortedItems, ih, List.map_cons]

theorem lookup_insertMember (key k : String) (v : Json) (done : List (String × Json)) :
    (insertMember key v done).lookup k = if k = key then some v else done.lookup k := by
  have hcons (rest : List (String × Json)) :
      ((key, v) :: rest).lookup k = if k = key then some v else rest.lookup k := by
    split
    next h => rw [h, List.lookup_cons_self]
    next h => exact lookup_cons_of_ne h
  induction done with
  | nil => exact hcons []
  | cons m done ih =>
    obtain ⟨k', w⟩ := m
    rw [insertMember]
    split
    next => exact hcons _
    next =>
      split
      next heq =>
        rw [hcons]
        split
        next => rfl
        next h => exact (lookup_cons_of_ne (heq ▸ h)).symm
      next hne =>
        by_cases hk : k = k'
        · subst hk
          rw [List.lookup_cons_self, List.lookup_cons_self, if_neg fun h => hne h.symm]
        · rw [lookup_cons_of_ne hk, lookup_cons_of_ne hk, ih]

/-- Looking up among members that have been moved behind others. -/
theorem lookup_sortedMembers_append {members : List (String × Json)} (hkeys : (keys members).Nodup)
    (done : List (String × Json)) (key : String) :
    (sortedMembers done members).lookup key
      = ((members.lookup key).map sorted).or (done.lookup key) := by
  induction members generalizing done with
  | nil => rw [sortedMembers, List.lookup_nil, Option.map_none, Option.none_or]
  | cons m members ih =>
    obtain ⟨k, v⟩ := m
    obtain ⟨hfirst, hrest⟩ := List.nodup_cons.mp hkeys
    rw [sortedMembers, ih hrest, lookup_insertMember]
    by_cases hkey : key = k
    · subst hkey
      have hnone : members.lookup key = none := lookup_eq_none_iff_keys.mpr hfirst
      rw [hnone, List.lookup_cons_self, if_pos rfl]
      rfl
    · rw [if_neg hkey, lookup_cons_of_ne hkey]

/-- **Sorting members changes no lookup**, apart from sorting the values too. -/
theorem lookup_sortedMembers {members : List (String × Json)} (hkeys : (keys members).Nodup)
    (key : String) : (sortedMembers [] members).lookup key = (members.lookup key).map sorted := by
  rw [lookup_sortedMembers_append hkeys, List.lookup_nil, Option.or_none]

/-- Keys in ascending order, each once. -/
def Ascending (ms : List (String × Json)) : Prop := (keys ms).Pairwise (· < ·)

theorem Ascending.nodup {ms : List (String × Json)} (h : Ascending ms) : (keys ms).Nodup := by
  refine List.Pairwise.imp ?_ h
  rintro k k' hlt rfl
  exact String.lt_irrefl k hlt

theorem mem_keys_insertMember {key k : String} {v : Json} {done : List (String × Json)}
    (h : k ∈ keys (insertMember key v done)) : k = key ∨ k ∈ keys done := by
  by_contra hnot
  obtain ⟨hne, hnotin⟩ := not_or.mp hnot
  have hnone : (insertMember key v done).lookup k = none := by
    rw [lookup_insertMember, if_neg hne]
    exact lookup_eq_none_iff_keys.mpr hnotin
  exact lookup_eq_none_iff_keys.mp hnone h

theorem Ascending.insertMember {done : List (String × Json)} (h : Ascending done) (key : String)
    (v : Json) : Ascending (insertMember key v done) := by
  induction done with
  | nil => exact List.pairwise_singleton _ key
  | cons m done ih =>
    obtain ⟨k, w⟩ := m
    obtain ⟨hfirst, hrest⟩ := List.pairwise_cons.mp h
    rw [Json.insertMember]
    split
    next hlt =>
      refine List.pairwise_cons.mpr ⟨fun k' hk' => ?_, h⟩
      rcases List.mem_cons.mp hk' with rfl | hk'
      · exact hlt
      · exact String.lt_trans hlt (hfirst k' hk')
    next hnlt =>
      split
      next heq => exact List.pairwise_cons.mpr ⟨heq ▸ hfirst, hrest⟩
      next hne =>
        have hgt : k < key := by
          refine String.not_le.mp fun hle => hne (String.le_antisymm hle ?_)
          exact (String.le_total k key).resolve_right fun hge =>
            hnlt (String.not_le.mp fun hle' => hne (String.le_antisymm hle hle'))
        refine List.pairwise_cons.mpr ⟨fun k' hk' => ?_, ih hrest⟩
        rcases mem_keys_insertMember hk' with rfl | hk'
        · exact hgt
        · exact hfirst k' hk'

theorem Ascending.sortedMembers {done : List (String × Json)} (h : Ascending done)
    (members : List (String × Json)) : Ascending (sortedMembers done members) := by
  induction members generalizing done with
  | nil => rw [Json.sortedMembers]; exact h
  | cons m members ih =>
    obtain ⟨k, v⟩ := m
    rw [Json.sortedMembers]
    exact ih (h.insertMember k v.sorted)

theorem nodup_keys_sortedMembers (members : List (String × Json)) :
    (keys (sortedMembers [] members)).Nodup := by
  have hnil : Ascending [] := List.Pairwise.nil
  exact (hnil.sortedMembers members).nodup

/-- Sorting repeats no key. -/
theorem unrepeated_sorted {v : Json} (h : v.unrepeated = true) : v.sorted.unrepeated = true := by
  induction v using Json.induction with
  | array items ih =>
    rw [sorted, sortedItems_eq, unrepeated_array]
    intro w hw
    obtain ⟨v, hv, rfl⟩ := List.mem_map.mp hw
    exact ih v hv (unrepeated_array.mp h v hv)
  | object members ih =>
    obtain ⟨hkeys, hvalues⟩ := unrepeated_object.mp h
    rw [sorted, unrepeated_object]
    refine ⟨nodup_keys_sortedMembers members, fun m hm => ?_⟩
    have hlookup := lookup_of_mem (nodup_keys_sortedMembers members) (show (m.1, m.2) ∈ _ from hm)
    rw [lookup_sortedMembers hkeys] at hlookup
    obtain ⟨v, hv, hsorted⟩ := Option.map_eq_some_iff.mp hlookup
    have hmem : (m.1, v) ∈ members := mem_of_lookup hv
    rw [← hsorted]
    exact ih (m.1, v) hmem (hvalues (m.1, v) hmem)
  | leaf v hv =>
    rw [sorted_of_isLeaf hv]
    exact h

end RepairCorpus.Json
