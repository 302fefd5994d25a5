import RepairCorpus.Proofs.Json.Members

/-!
# Changes inside a document

A pointer leads into a document by keys and positions, and what stands at its end can be exchanged.  What an
object says changes under one key, and to a reader who asks for keys it does not matter where the new member
is written.

* `Json.putMember`: exchanging the value of a key.
* `Json.Puts`: members that say something else under one key, or nothing.
* `Json.putAt`: exchanging what stands at the end of a pointer.
-/

namespace RepairCorpus.Json

/-! ## One member -/

section Members

variable {α : Type} {key k : String} {ms ms' ns : List (String × α)} {v w : α} {v? : Option α}

/-- Exchanges the value of a key. -/
def putMember (key : String) (w : α) (ms : List (String × α)) : List (String × α) :=
  ms.map fun m => if m.1 = key then (key, w) else m

@[simp] theorem keys_putMember : keys (putMember key w ms) = keys ms := by
  rw [putMember, keys, keys, List.map_map]
  refine List.map_congr_left fun m _ => ?_
  by_cases hm : m.1 = key
  · rw [Function.comp_apply, if_pos hm, hm]
  · rw [Function.comp_apply, if_neg hm]

theorem lookup_putMember_self (h : ms.lookup key = some v) :
    (putMember key w ms).lookup key = some w := by
  induction ms with
  | nil => cases h
  | cons m ms ih =>
    obtain ⟨k, v'⟩ := m
    rw [putMember, List.map_cons]
    by_cases hk : k = key
    · rw [if_pos hk, List.lookup_cons_self]
    · rw [lookup_cons_of_ne (Ne.symm hk)] at h
      rw [if_neg hk, lookup_cons_of_ne (Ne.symm hk)]
      exact ih h

theorem lookup_putMember_of_ne (hk : k ≠ key) : (putMember key w ms).lookup k = ms.lookup k := by
  induction ms with
  | nil => rfl
  | cons m ms ih =>
    obtain ⟨k', v'⟩ := m
    rw [putMember, List.map_cons]
    by_cases hk' : k' = key
    · subst hk'
      rw [if_pos rfl, lookup_cons_of_ne hk, lookup_cons_of_ne hk]
      exact ih
    · rw [if_neg hk', List.lookup_cons, List.lookup_cons]
      split
      · rfl
      · exact ih

/-- Members with the same keys in the same order and the same values are the same. -/
theorem eq_of_lookup (hkeys : keys ms = keys ns) (hnodup : (keys ms).Nodup)
    (h : ∀ k ∈ keys ms, ms.lookup k = ns.lookup k) : ms = ns := by
  induction ms generalizing ns with
  | nil => exact (List.map_eq_nil_iff.mp hkeys.symm).symm
  | cons m ms ih =>
    cases ns with
    | nil => cases hkeys
    | cons n ns =>
      obtain ⟨k, v⟩ := m
      obtain ⟨k', w⟩ := n
      obtain ⟨rfl, hrest⟩ := List.cons.inj hkeys
      obtain ⟨hfirst, hnodup⟩ := List.nodup_cons.mp hnodup
      have hv := h k (.head _)
      rw [List.lookup_cons_self, List.lookup_cons_self] at hv
      cases hv
      refine congrArg _ (ih hrest hnodup fun key hkey => ?_)
      have hne : key ≠ k := fun heq => hfirst (heq ▸ hkey)
      have hlookup := h key (.tail _ hkey)
      rw [lookup_cons_of_ne hne, lookup_cons_of_ne hne] at hlookup
      exact hlookup

/-- `Puts key v? ms ms'` holds if `ms'` says `v?` under `key`, or does not give it, and otherwise says what
`ms` says. -/
structure Puts (key : String) (v? : Option α) (ms ms' : List (String × α)) : Prop where
  nodup : (keys ms').Nodup
  lookup : ∀ k, ms'.lookup k = if k = key then v? else ms.lookup k

namespace Puts

theorem lookup_self (h : Puts key v? ms ms') : ms'.lookup key = v? := by rw [h.lookup, if_pos rfl]

theorem lookup_of_ne (h : Puts key v? ms ms') (hk : k ≠ key) : ms'.lookup k = ms.lookup k := by
  rw [h.lookup, if_neg hk]

end Puts

theorem puts_putMember (hkeys : (keys ms).Nodup) (h : ms.lookup key = some v) :
    Puts key (some w) ms (putMember key w ms) where
  nodup := by rwa [keys_putMember]
  lookup k := by
    split
    next hk =>
      subst hk
      exact lookup_putMember_self h
    next hk => exact lookup_putMember_of_ne hk

/-- Writes a member anew, or takes it away. -/
def rewriteMember (key : String) (v? : Option α) (ms : List (String × α)) : List (String × α) :=
  (v?.toList.map fun v => (key, v)) ++ ms.filter fun m => m.1 ≠ key

theorem lookup_filter_ne (ms : List (String × α)) (key k : String) :
    (ms.filter fun m => m.1 ≠ key).lookup k = if k = key then none else ms.lookup k := by
  induction ms with
  | nil => exact (ite_self none).symm
  | cons m ms ih =>
    obtain ⟨k', v⟩ := m
    rw [List.filter_cons]
    by_cases hk' : k' = key
    · subst hk'
      rw [if_neg (by simp), ih]
      split
      · rfl
      · next hk => rw [lookup_cons_of_ne hk]
    · rw [if_pos (by simpa using hk')]
      by_cases hk : k = k'
      · rw [hk, if_neg hk', List.lookup_cons_self, List.lookup_cons_self]
      · rw [lookup_cons_of_ne hk, lookup_cons_of_ne hk, ih]

theorem lookup_rewriteMember (ms : List (String × α)) (key k : String) (v? : Option α) :
    (rewriteMember key v? ms).lookup k = if k = key then v? else ms.lookup k := by
  rw [rewriteMember]
  cases v? with
  | none => exact lookup_filter_ne ms key k
  | some v =>
    show ((key, v) :: ms.filter fun m => m.1 ≠ key).lookup k = _
    by_cases hk : k = key
    · rw [if_pos hk, hk, List.lookup_cons_self]
    · rw [if_neg hk, lookup_cons_of_ne hk, lookup_filter_ne, if_neg hk]

/-- **Every change of one member can be made.** -/
theorem puts_rewriteMember (hkeys : (keys ms).Nodup) (key : String) (v? : Option α) :
    Puts key v? ms (rewriteMember key v? ms) where
  nodup := by
    have hfilter : (keys (ms.filter fun m => m.1 ≠ key)).Nodup :=
      hkeys.sublist (List.filter_sublist.map Prod.fst)
    cases v? with
    | none => exact hfilter
    | some v =>
      refine List.nodup_cons.mpr ⟨lookup_eq_none_iff_keys.mp ?_, hfilter⟩
      exact (lookup_filter_ne ms key key).trans (if_pos rfl)
  lookup k := lookup_rewriteMember ms key k v?

end Members

/-! ## Pointers -/

/-- A step into a value. -/
inductive Step where
  | key (name : String)
  | index (i : Nat)
  deriving DecidableEq

/-- Steps from a document to a value in it. -/
abbrev Pointer := List Step

/-- Exchanges the value at the end of a pointer; a pointer that leads nowhere changes nothing. -/
def putAt : Json → Pointer → Json → Json
  | _, [], new => new
  | .object ms, .key name :: rest, new =>
    match ms.lookup name with
    | some w => .object (putMember name (w.putAt rest new) ms)
    | none => .object ms
  | .array items, .index i :: rest, new =>
    match items[i]? with
    | some u => .array (items.set i (u.putAt rest new))
    | none => .array items
  | v, _ :: _, _ => v

@[simp] theorem putAt_nil (v new : Json) : v.putAt [] new = new := by
  cases v <;> rfl

theorem putAt_key {ms : List (String × Json)} {name : String} {w : Json} (h : ms.lookup name = some w)
    (rest : Pointer) (new : Json) :
    (object ms).putAt (.key name :: rest) new = .object (putMember name (w.putAt rest new) ms) := by
  rw [putAt, h]

theorem putAt_index {items : List Json} {i : Nat} {u : Json} (h : items[i]? = some u) (rest : Pointer)
    (new : Json) :
    (array items).putAt (.index i :: rest) new = .array (items.set i (u.putAt rest new)) := by
  rw [putAt, h]

/-- Nothing but null is exchanged for null. -/
theorem isNull_putAt {v new : Json} (hv : v.isNull = false) (hnew : new.isNull = false)
    (ptr : Pointer) : (v.putAt ptr new).isNull = false := by
  cases ptr with
  | nil => rwa [putAt_nil]
  | cons step rest =>
    cases v with
    | object ms =>
      cases step with
      | key name =>
        rw [putAt]
        split <;> rfl
      | index i => rfl
    | array items =>
      cases step with
      | key name => rfl
      | index i =>
        rw [putAt]
        split <;> rfl
    | null => cases hv
    | _ => cases step <;> rfl

end RepairCorpus.Json
