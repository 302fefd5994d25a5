import RepairCorpus.Proofs.Sequence.Acceptance

/-!
# Numbered pieces

A production may be asked for its pieces when the parts carry their numbers (`Form.numbered`).  Nothing
is lost by that, and whatever is made of the parts, the production of what is made can be read off the
numbered pieces (`Form.production_mapIdx`).  No two pieces have parts of the same number, so a
production can be split at each of its parts (`Form.split_numbered`), and putting another part in the
place of one changes a single piece (`Form.numbered_setChild`).
-/

namespace RepairCorpus

/-! ## Parts among pieces -/

namespace Piece

variable {α : Type}

/-- Where there is a part among some pieces, there is the piece with that part. -/
theorem split_at_part {ps : List (Piece α)} {i : Nat} {x : α} (h : (parts ps)[i]? = some x) :
    ∃ before position after, ps = before ++ .part position x :: after ∧
      (parts before).length = i := by
  induction ps generalizing i with
  | nil => cases h
  | cons p ps ih =>
    cases p with
    | token t =>
      obtain ⟨before, position, after, rfl, hlen⟩ := ih h
      exact ⟨.token t :: before, position, after, rfl, hlen⟩
    | part position y =>
      cases i with
      | zero =>
        cases h
        exact ⟨[], position, ps, rfl, rfl⟩
      | succ i =>
        obtain ⟨before, q, after, rfl, hlen⟩ := ih h
        exact ⟨.part position y :: before, q, after, rfl, congrArg (· + 1) hlen⟩

/-- Changing parts in a way that leaves some alone leaves pieces with these alone. -/
theorem map_map_eq_of_parts {β : Type} {f g : α → β} {ps : List (Piece α)}
    (h : ∀ x ∈ parts ps, f x = g x) : ps.map (Piece.map f) = ps.map (Piece.map g) := by
  induction ps with
  | nil => rfl
  | cons p ps ih =>
    cases p with
    | token t => exact congrArg (Piece.token t :: ·) (ih h)
    | part position x =>
      rw [List.map_cons, List.map_cons, ih fun y hy => h y (List.mem_cons_of_mem _ hy)]
      show part position (f x) :: _ = part position (g x) :: _
      rw [h x List.mem_cons_self]

theorem placed_append (ps qs : List (Piece α)) : placed (ps ++ qs) = placed ps ++ placed qs := by
  simp [placed]

theorem length_placed (ps : List (Piece α)) : (placed ps).length = (parts ps).length := by
  rw [← map_snd_placed, List.length_map]

theorem map_self (p : Piece α) : p.map (fun x => x) = p := by
  cases p <;> rfl

end Piece

/-! ## Productions of numbered parts -/

namespace Form

variable {α β : Type}

/-- The pieces of a construct in a position, every part with its number among the parts. -/
def numbered (position : Position) (form : Form α) : Except Error (List (Piece (Nat × α))) :=
  (form.mapIdx Prod.mk).production position

/-- Whatever is made of the parts of a construct, its production can be read off the numbered
pieces. -/
theorem production_mapIdx (f : Nat → α → β) (position : Position) (form : Form α) :
    (form.mapIdx f).production position
      = (form.numbered position).map (List.map (Piece.map fun p => f p.1 p.2)) := by
  rw [numbered, ← production_map, map, mapIdx_mapIdx]

theorem production_eq_numbered (position : Position) (form : Form α) :
    form.production position = (form.numbered position).map (List.map (Piece.map Prod.snd)) := by
  have h := production_mapIdx (fun _ x => x) position form
  rwa [mapIdx_eq_self fun _ _ => rfl] at h

/-- The numbers on the pieces are those of the parts. -/
theorem parts_numbered {position : Position} {form : Form α} {ps : List (Piece (Nat × α))}
    (h : form.numbered position = .ok ps) : Piece.parts ps = form.children.mapIdx Prod.mk := by
  rw [children_production h, children_mapIdx]

/-- A production can be split at each of its parts, and no other piece has a part of that
number. -/
theorem split_numbered {position : Position} {form : Form α} {ps : List (Piece (Nat × α))}
    {i : Nat} {c : α} (hps : form.numbered position = .ok ps) (hc : form.children[i]? = some c) :
    ∃ before q after, ps = before ++ .part q (i, c) :: after ∧
      (∀ p ∈ Piece.parts before, p.1 ≠ i) ∧ ∀ p ∈ Piece.parts after, p.1 ≠ i := by
  have hparts := parts_numbered hps
  have hi : (Piece.parts ps)[i]? = some (i, c) := by
    rw [hparts, List.getElem?_mapIdx, hc]
    rfl
  obtain ⟨before, q, after, rfl, hlen⟩ := Piece.split_at_part hi
  rw [Piece.parts_append, Piece.parts_part_cons] at hparts
  have hnumber {j : Nat} {p : Nat × α}
      (hj : (Piece.parts before ++ (i, c) :: Piece.parts after)[j]? = some p) : p.1 = j := by
    rw [hparts, List.getElem?_mapIdx] at hj
    obtain ⟨x, -, rfl⟩ := Option.map_eq_some_iff.mp hj
    rfl
  refine ⟨before, q, after, rfl, fun p hp => ?_, fun p hp => ?_⟩
  · obtain ⟨j, hj⟩ := List.getElem?_of_mem hp
    obtain ⟨hlt, -⟩ := List.getElem?_eq_some_iff.mp hj
    have hp1 := hnumber ((List.getElem?_append_left hlt).trans hj)
    omega
  · obtain ⟨j, hj⟩ := List.getElem?_of_mem hp
    have hp1 : p.1 = (Piece.parts before).length + (j + 1) := by
      refine hnumber ?_
      rw [List.getElem?_append_right (Nat.le_add_right _ _), Nat.add_sub_cancel_left]
      exact hj
    omega

/-- **Putting another part in the place of one changes one numbered piece**, and the position of that
piece is the one in which the construct places the part. -/
theorem numbered_setChild {position : Position} {form : Form α} {ns : List (Piece (Nat × α))}
    {i : Nat} {c : α} (hns : form.numbered position = .ok ns)
    (hc : form.children[i]? = some c) :
    ∃ before q after, ns = before ++ .part q (i, c) :: after ∧
      (∀ p ∈ Piece.parts before, p.1 ≠ i) ∧ (∀ p ∈ Piece.parts after, p.1 ≠ i) ∧
      (form.placements position)[i]? = some (q, c) ∧
      ∀ x, (form.setChild i x).numbered position = .ok (before ++ .part q (i, x) :: after) := by
  obtain ⟨before, q, after, rfl, hbefore, hafter⟩ := split_numbered hns hc
  refine ⟨before, q, after, rfl, hbefore, hafter, ?_, fun x => ?_⟩
  · have hproduction : form.production position
        = .ok ((before ++ .part q (i, c) :: after).map (Piece.map Prod.snd)) := by
      rw [production_eq_numbered, hns]
      rfl
    have hlength : (Piece.placed before).length = i := by
      have hparts := parts_numbered hns
      rw [Piece.parts_append, Piece.parts_part_cons] at hparts
      have hentry : (form.children.mapIdx Prod.mk)[(Piece.parts before).length]? = some (i, c) := by
        rw [← hparts]
        simp
      rw [List.getElem?_mapIdx] at hentry
      obtain ⟨d, -, hd⟩ := Option.map_eq_some_iff.mp hentry
      rw [Piece.length_placed]
      exact (Prod.mk.inj hd).1
    rw [placements_of_production hproduction, Piece.placed_map, Piece.placed_append,
      Piece.placed_part_cons, List.getElem?_map, List.getElem?_append_right (Nat.le_of_eq hlength),
      hlength, Nat.sub_self]
    rfl
  · have hkept {ms : List (Piece (Nat × α))} (hms : ∀ p ∈ Piece.parts ms, p.1 ≠ i) :
        ms.map (Piece.map fun p => (p.1, if p.1 = i then x else p.2)) = ms := by
      have hsame : ms.map (Piece.map fun p => (p.1, if p.1 = i then x else p.2))
          = ms.map (Piece.map fun p => p) :=
        Piece.map_map_eq_of_parts fun p hp => Prod.ext rfl (if_neg (hms p hp))
      rw [hsame, List.map_congr_left fun p _ => Piece.map_self p]
      exact List.map_id ms
    have hset : (form.setChild i x).numbered position
        = (form.numbered position).map
          (List.map (Piece.map fun p => (p.1, if p.1 = i then x else p.2))) := by
      rw [numbered, setChild, mapIdx_mapIdx]
      exact production_mapIdx (fun j y => (j, if j = i then x else y)) position form
    rw [hset, hns]
    refine congrArg Except.ok ?_
    rw [List.map_append, List.map_cons, hkept hbefore, hkept hafter]
    simp [Piece.map]

end Form

/-! ## Pieces one after the other -/

namespace Piece

/-- Pieces are written one list after the other. -/
theorem run_append (ps qs : List (Piece Node)) :
    run (ps ++ qs) = (run ps).bind fun ts => (run qs).map (ts ++ ·) := by
  induction ps with
  | nil =>
    show run qs = (run qs).map ([] ++ ·)
    cases run qs <;> rfl
  | cons p ps ih =>
    cases p with
    | token t =>
      rw [List.cons_append, run_token_cons, run_token_cons, ih]
      cases run ps with
      | error e => rfl
      | ok ts => cases run qs <;> rfl
    | part position n =>
      rw [List.cons_append, run_part_cons, run_part_cons, ih]
      cases n.tokens position with
      | error e => rfl
      | ok us =>
        cases run ps with
        | error e => rfl
        | ok ts =>
          cases run qs with
          | error e => rfl
          | ok vs => exact congrArg Except.ok (List.append_assoc us ts vs).symm

theorem run_append_eq_ok_iff {ps qs : List (Piece Node)} {ts : List Token} :
    run (ps ++ qs) = .ok ts ↔ ∃ us vs, run ps = .ok us ∧ run qs = .ok vs ∧ us ++ vs = ts := by
  rw [run_append, Except.bind_eq_ok_iff]
  constructor
  · rintro ⟨us, hus, h⟩
    obtain ⟨vs, hvs, rfl⟩ := Except.map_eq_ok_iff.mp h
    exact ⟨us, vs, hus, hvs, rfl⟩
  · rintro ⟨us, vs, hus, hvs, rfl⟩
    exact ⟨us, hus, Except.map_eq_ok_iff.mpr ⟨vs, hvs, rfl⟩⟩

end Piece

end RepairCorpus
