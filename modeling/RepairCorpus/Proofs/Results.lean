import Mathlib.Data.List.Forall2

/-!
# Results of computations that can fail

When a composed computation succeeds, and when it fails, in terms of its parts; and what a search finds if
there is one thing only that it can find.
-/

namespace Except

variable {ε α β γ : Type}

theorem map_eq_ok_iff {f : α → β} {x : Except ε α} {b : β} :
    x.map f = .ok b ↔ ∃ a, x = .ok a ∧ f a = b := by
  cases x with
  | error e => simp only [Except.map, reduceCtorEq, false_and, exists_false]
  | ok a => simp only [Except.map, Except.ok.injEq, exists_eq_left']

theorem map_eq_error_iff {f : α → β} {x : Except ε α} {e : ε} :
    x.map f = .error e ↔ x = .error e := by
  cases x with
  | error e' => simp only [Except.map, Except.error.injEq]
  | ok a => simp only [Except.map, reduceCtorEq]

theorem map_bind (f : β → γ) (x : Except ε α) (g : α → Except ε β) :
    (x.bind g).map f = x.bind fun a => (g a).map f := by
  cases x <;> rfl

theorem bind_map (f : α → β) (x : Except ε α) (g : β → Except ε γ) :
    (x.map f).bind g = x.bind fun a => g (f a) := by
  cases x <;> rfl

theorem bind_eq_ok_iff {f : α → Except ε β} {x : Except ε α} {b : β} :
    x.bind f = .ok b ↔ ∃ a, x = .ok a ∧ f a = .ok b := by
  cases x with
  | error e => simp only [Except.bind, reduceCtorEq, false_and, exists_false]
  | ok a => simp only [Except.bind, Except.ok.injEq, exists_eq_left']

/-- Putting one result in front of a list of results. -/
theorem bind_cons_eq_ok_iff {x : Except ε α} {xs : Except ε (List α)} {as : List α} :
    (x.bind fun a => xs.bind fun rest => .ok (a :: rest)) = .ok as ↔
      ∃ a rest, x = .ok a ∧ xs = .ok rest ∧ as = a :: rest := by
  rw [bind_eq_ok_iff]
  refine exists_congr fun a => ?_
  rw [bind_eq_ok_iff, ← exists_and_left]
  refine exists_congr fun rest => and_congr_right fun _ => and_congr_right fun _ => ?_
  rw [Except.ok.injEq, eq_comm]

/-- Several results are the results of each. -/
theorem mapM_eq_ok_iff {r : α → Except ε β} {xs : List α} {ys : List β} :
    xs.mapM r = .ok ys ↔ List.Forall₂ (fun x y => r x = .ok y) xs ys := by
  induction xs generalizing ys with
  | nil =>
    rw [List.mapM_nil, List.forall₂_nil_left_iff]
    exact (Except.ok.injEq [] ys).to_iff.trans eq_comm
  | cons x xs ih =>
    rw [List.mapM_cons, List.forall₂_cons_left_iff]
    refine bind_cons_eq_ok_iff.trans (exists_congr fun y => exists_congr fun rest => ?_)
    rw [ih]

theorem exists_of_mapM_eq_ok {r : α → Except ε β} {xs : List α} {ys : List β} (h : xs.mapM r = .ok ys)
    {i : Nat} {x : α} (hx : xs[i]? = some x) : ∃ y, ys[i]? = some y ∧ r x = .ok y := by
  obtain ⟨hlength, hget⟩ := List.forall₂_iff_get.mp (mapM_eq_ok_iff.mp h)
  obtain ⟨hi, rfl⟩ := List.getElem?_eq_some_iff.mp hx
  have hi' : i < ys.length := hlength ▸ hi
  exact ⟨ys[i], List.getElem?_eq_getElem hi', hget i hi hi'⟩

theorem exists_of_mem_mapM {r : α → Except ε β} {xs : List α} {ys : List β} (h : xs.mapM r = .ok ys) {y : β}
    (hy : y ∈ ys) : ∃ (i : Nat) (x : α), xs[i]? = some x ∧ r x = .ok y := by
  obtain ⟨hlength, hget⟩ := List.forall₂_iff_get.mp (mapM_eq_ok_iff.mp h)
  obtain ⟨i, hi, rfl⟩ := List.getElem_of_mem hy
  have hi' : i < xs.length := hlength.symm ▸ hi
  exact ⟨i, xs[i], List.getElem?_eq_getElem hi', hget i hi' hi⟩

/-- Exchanging one of several things that can all be read. -/
theorem mapM_set {r : α → Except ε β} {xs : List α} {ys : List β} (h : xs.mapM r = .ok ys) {i : Nat}
    (hi : i < xs.length) (x : α) : (xs.set i x).mapM r = (r x).map fun y => ys.set i y := by
  induction xs generalizing ys i with
  | nil => cases hi
  | cons a xs ih =>
    rw [List.mapM_cons] at h
    obtain ⟨b, rest, hb, hrest, rfl⟩ := bind_cons_eq_ok_iff.mp h
    cases i with
    | zero =>
      rw [List.set_cons_zero, List.mapM_cons, hrest]
      cases r x <;> rfl
    | succ i =>
      rw [List.set_cons_succ, List.mapM_cons, hb, ih hrest (Nat.lt_of_succ_lt_succ hi)]
      cases r x <;> rfl

/-- Where several things are read as what has been made of others, each is read as what has been made of
the one at its position, and can be exchanged. -/
theorem exists_of_mapM_eq_ok_map {r : α → Except ε β} {g : γ → β} {xs : List α} {zs : List γ}
    (h : xs.mapM r = .ok (zs.map g)) {i : Nat} {x : α} (hx : xs[i]? = some x) :
    ∃ z, zs[i]? = some z ∧ r x = .ok (g z) ∧
      ∀ x', (xs.set i x').mapM r = (r x').map fun y => (zs.map g).set i y := by
  obtain ⟨y, hy, hread⟩ := exists_of_mapM_eq_ok h hx
  rw [List.getElem?_map] at hy
  obtain ⟨z, hz, rfl⟩ := Option.map_eq_some_iff.mp hy
  exact ⟨z, hz, hread, mapM_set h (List.getElem?_eq_some_iff.mp hx).1⟩

end Except

theorem List.find?_eq_some_of_unique {α : Type} {test : α → Bool} {x : α} {xs : List α} (hmem : x ∈ xs)
    (hx : test x = true) (hunique : ∀ y ∈ xs, test y = true → y = x) : xs.find? test = some x := by
  cases hfind : xs.find? test with
  | none => exact absurd hx (List.find?_eq_none.mp hfind x hmem)
  | some y => rw [hunique y (List.mem_of_find?_eq_some hfind) (List.find?_some hfind)]
