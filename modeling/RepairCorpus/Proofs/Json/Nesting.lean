import Mathlib.Data.List.Perm.Basic
import RepairCorpus.Json.Document

/-!
# Nesting

A reader that limits nesting goes on as one that does not, as long as what it reads does not nest deeper
than the limit.  For this the depth of a value is compared with what the reader has open: giving up at any
point leaves a value at least as deep as there are open arrays and objects, and the value never gets less
deep by reading on.

* `Json.depth`: how deep arrays and objects nest in a value.
* `Reading.reach_le_step`: **reading one more lexeme does not make the value less deep.**
* `Reading.step_some_eq`: a limit that the value keeps to does not matter to a step.
* `Reading.Whole.step`: reading one more lexeme leaves nothing missing, unless it fails.
-/

namespace RepairCorpus.Json

/-! ## Depth -/

mutual

/-- How deep arrays and objects nest in a value. -/
def depth : Json → Nat
  | .array items => 1 + depthItems items
  | .object members => 1 + depthMembers members
  | _ => 0

/-- The depth of the deepest item. -/
def depthItems : List Json → Nat
  | [] => 0
  | v :: vs => max v.depth (depthItems vs)

/-- The depth of the deepest member. -/
def depthMembers : List (String × Json) → Nat
  | [] => 0
  | (_, v) :: ms => max v.depth (depthMembers ms)

end

theorem depth_missing : depth .missing = 0 := rfl

theorem depthItems_eq (items : List Json) : depthItems items = (items.map depth).foldr max 0 := by
  induction items with
  | nil => rw [depthItems, List.map_nil, List.foldr_nil]
  | cons v vs ih => rw [depthItems, ih, List.map_cons, List.foldr_cons]

theorem depthMembers_eq (members : List (String × Json)) :
    depthMembers members = (members.map fun m => m.2.depth).foldr max 0 := by
  induction members with
  | nil => rw [depthMembers, List.map_nil, List.foldr_nil]
  | cons m ms ih =>
    obtain ⟨key, v⟩ := m
    rw [depthMembers, ih, List.map_cons, List.foldr_cons]

theorem foldr_max_reverse (ns : List Nat) : ns.reverse.foldr max 0 = ns.foldr max 0 :=
  (List.reverse_perm ns).foldr_op_eq

theorem depth_array_reverse (items : List Json) :
    depth (.array items.reverse) = 1 + depthItems items := by
  rw [depth, depthItems_eq, depthItems_eq, List.map_reverse, foldr_max_reverse]

theorem depth_object_reverse (members : List (String × Json)) :
    depth (.object members.reverse) = 1 + depthMembers members := by
  rw [depth, depthMembers_eq, depthMembers_eq, List.map_reverse, foldr_max_reverse]

/-! ## What is open -/

/-- The depth of an open array or object around a value of a given depth. -/
def Frame.depth (inner : Nat) : Frame → Nat
  | .array items => 1 + max inner (depthItems items)
  | .member members _ => 1 + max inner (depthMembers members)

/-- The depth of everything that is open around a value of a given depth. -/
def openDepth (inner : Nat) : List Frame → Nat
  | [] => inner
  | f :: frames => openDepth (f.depth inner) frames

theorem depth_unwind (v : Json) (frames : List Frame) :
    (unwind v frames).depth = openDepth v.depth frames := by
  induction frames generalizing v with
  | nil => rfl
  | cons f frames ih =>
    cases f with
    | array items =>
      rw [unwind, ih, depth_array_reverse]
      rfl
    | member members key =>
      rw [unwind, ih, depth_object_reverse]
      rfl

theorem openDepth_mono {inner inner' : Nat} (h : inner ≤ inner') (frames : List Frame) :
    openDepth inner frames ≤ openDepth inner' frames := by
  induction frames generalizing inner inner' with
  | nil => exact h
  | cons f frames ih =>
    refine ih ?_
    cases f with
    | array items =>
      show 1 + max inner _ ≤ 1 + max inner' _
      omega
    | member members key =>
      show 1 + max inner _ ≤ 1 + max inner' _
      omega

/-- A value is at least as deep as there are arrays and objects open around it. -/
theorem add_length_le_openDepth (inner : Nat) (frames : List Frame) :
    inner + frames.length ≤ openDepth inner frames := by
  induction frames generalizing inner with
  | nil => exact Nat.le_refl _
  | cons f frames ih =>
    have hframe : inner + 1 ≤ f.depth inner := by
      cases f with
      | array items =>
        show inner + 1 ≤ 1 + max inner _
        omega
      | member members key =>
        show inner + 1 ≤ 1 + max inner _
        omega
    have hrest := ih (f.depth inner)
    rw [List.length_cons, openDepth]
    omega

namespace Reading

/-- How deep the value is if reading ends here. -/
def reach (r : Reading) : Nat := r.abandon.value.depth

theorem reach_value (frames : List Frame) (mayClose : Bool) :
    reach (.value frames mayClose) = openDepth 0 frames := depth_unwind .missing frames

theorem reach_afterItem (items : List Json) (frames : List Frame) :
    reach (.afterItem items frames) = openDepth (1 + depthItems items) frames := by
  refine (depth_unwind _ frames).trans ?_
  rw [depth_array_reverse, depthItems, depth_missing, Nat.zero_max]

theorem depth_missing_member (members : List (String × Json)) (key : String) :
    depth (.object ((key, .missing) :: members).reverse) = 1 + depthMembers members := by
  rw [depth_object_reverse, depthMembers, depth_missing, Nat.zero_max]

theorem reach_key (members : List (String × Json)) (frames : List Frame) (mayClose : Bool) :
    reach (.key members frames mayClose) = openDepth (1 + depthMembers members) frames := by
  refine (depth_unwind _ frames).trans ?_
  rw [depth_missing_member]

theorem reach_colon (members : List (String × Json)) (key : String) (frames : List Frame) :
    reach (.colon members key frames) = openDepth (1 + depthMembers members) frames := by
  refine (depth_unwind _ frames).trans ?_
  rw [depth_missing_member]

theorem reach_afterMember (members : List (String × Json)) (frames : List Frame) :
    reach (.afterMember members frames) = openDepth (1 + depthMembers members) frames := by
  refine (depth_unwind _ frames).trans ?_
  rw [depth_missing_member]

theorem reach_place (v : Json) (frames : List Frame) :
    reach (place v frames) = openDepth v.depth frames := by
  cases frames with
  | nil => rfl
  | cons f frames =>
    cases f with
    | array items =>
      rw [place, reach_afterItem, depthItems]
      rfl
    | member members key =>
      rw [place, reach_afterMember, depthMembers]
      rfl

theorem reach_fail (r : Reading) : reach r.fail = reach r := by
  cases r <;> rfl

/-- **Reading on does not make the value less deep.** -/
theorem reach_le_step (limit : Option Nat) (r : Reading) (l : Lexeme) :
    reach r ≤ reach (step limit r l) := by
  unfold step
  split
  next frames mayClose s =>
    rw [reach_value, reach_place]
    exact openDepth_mono (Nat.zero_le _) frames
  next frames mayClose v =>
    rw [reach_value, reach_place]
    exact openDepth_mono (Nat.zero_le _) frames
  next frames mayClose =>
    split
    next =>
      rw [reach_value, reach_value]
      exact openDepth_mono (Nat.zero_le _) frames
    next => exact Nat.le_of_eq (reach_fail _).symm
  next frames mayClose =>
    split
    next =>
      rw [reach_value, reach_key]
      exact openDepth_mono (Nat.zero_le _) frames
    next => exact Nat.le_of_eq (reach_fail _).symm
  next items frames =>
    refine Nat.le_of_eq ?_
    rw [reach_value, reach_place, depth_array_reverse, openDepth, Frame.depth, Nat.zero_max]
  next items frames =>
    refine Nat.le_of_eq ?_
    rw [reach_value, reach_afterItem, openDepth, Frame.depth, Nat.zero_max]
  next items frames =>
    refine Nat.le_of_eq ?_
    rw [reach_afterItem, reach_place, depth_array_reverse]
  next members frames mayClose k =>
    refine Nat.le_of_eq ?_
    rw [reach_key, reach_colon]
  next members frames =>
    refine Nat.le_of_eq ?_
    rw [reach_key, reach_place, depth_object_reverse]
  next members k frames =>
    refine Nat.le_of_eq ?_
    rw [reach_colon, reach_value, openDepth, Frame.depth, Nat.zero_max]
  next members frames =>
    refine Nat.le_of_eq ?_
    rw [reach_afterMember, reach_key]
  next members frames =>
    refine Nat.le_of_eq ?_
    rw [reach_afterMember, reach_place, depth_object_reverse]
  next => exact Nat.le_of_eq (reach_fail _).symm

theorem reach_le_foldl (limit : Option Nat) (r : Reading) (ls : List Lexeme) :
    reach r ≤ reach (ls.foldl (step limit) r) := by
  induction ls generalizing r with
  | nil => exact Nat.le_refl _
  | cons l ls ih => exact Nat.le_trans (reach_le_step limit r l) (ih (step limit r l))

/-- A bracket that would exceed a limit makes the value exceed it. -/
theorem mayOpen_of_reach {n : Nat} {frames : List Frame} (h : openDepth 1 frames ≤ n) :
    mayOpen (some n) frames = true := by
  have hlength := add_length_le_openDepth 1 frames
  refine decide_eq_true ?_
  omega

/-- Only brackets that open something are judged by the limit. -/
theorem step_some_eq {n : Nat} {r : Reading} {l : Lexeme} (h : reach (step none r l) ≤ n) :
    step (some n) r l = step none r l := by
  cases r with
  | value frames mayClose =>
    cases l with
    | openBracket =>
      have hdepth : openDepth 1 frames ≤ n := by
        have hopen := reach_value (.array [] :: frames) true
        exact Nat.le_trans (Nat.le_of_eq hopen.symm) h
      exact if_pos (mayOpen_of_reach hdepth)
    | openBrace =>
      have hdepth : openDepth 1 frames ≤ n := by
        have hopen := reach_key [] frames true
        exact Nat.le_trans (Nat.le_of_eq hopen.symm) h
      exact if_pos (mayOpen_of_reach hdepth)
    | closeBracket =>
      cases frames with
      | nil => rfl
      | cons f frames => cases f <;> cases mayClose <;> rfl
    | _ => rfl
  | key members frames mayClose => cases l <;> cases mayClose <;> rfl
  | _ => cases l <;> rfl

end Reading

/-! ## Closed documents -/

/-- Whether nothing is missing in the value that a lexeme stands for. -/
def Lexeme.whole : Lexeme → Bool
  | .scalar v => v.whole
  | _ => true

theorem Lexeme.whole_ofRun (cs : List Char) : (Lexeme.ofRun cs).whole = true := by
  rw [ofRun]
  split
  next => rfl
  next => rfl
  next => rfl
  next =>
    split
    next => rfl
    next => split <;> rfl

theorem Lexeme.whole_ofText (read : Option (List Char)) : (Lexeme.ofText read).whole = true := by
  cases read <;> rfl

namespace Scan

/-- Whether nothing is missing in what has been found so far. -/
def Whole (s : Scan) : Prop := ∀ l ∈ s.found, l.whole = true

variable {s : Scan}

theorem Whole.cons {l : Lexeme} {found : List Lexeme} {mode : Mode}
    (h : ∀ l ∈ found, l.whole = true) (hl : l.whole = true) : Whole ⟨l :: found, mode⟩ :=
  List.forall_mem_cons.mpr ⟨hl, h⟩

theorem Whole.fail (h : s.Whole) : s.fail.Whole := Whole.cons h rfl

theorem Whole.endRun {found : List Lexeme} (h : ∀ l ∈ found, l.whole = true) (read : List Char) :
    (endRun found read).Whole := by
  have hrun := Lexeme.whole_ofRun read.reverse
  rw [Scan.endRun]
  split
  next => exact Whole.cons h rfl
  next l _ => exact Whole.cons h hrun

theorem Whole.idleStep (h : s.Whole) (c : Char) : (s.idleStep c).Whole := by
  unfold Scan.idleStep
  split
  case h_12 =>
    split
    next => exact h
    next => exact h.fail
  all_goals first | exact h | exact Whole.cons h rfl

theorem Whole.textStep (h : s.Whole) (read : Option (List Char)) (c : Char) :
    (s.textStep read c).Whole := by
  unfold Scan.textStep
  split
  next => exact Whole.cons h (Lexeme.whole_ofText read)
  next =>
    split
    next => exact h
    next =>
      split
      next => exact h.fail
      next => exact h

theorem Whole.escapeStep (h : s.Whole) (read : Option (List Char)) (c : Char) :
    (s.escapeStep read c).Whole := by
  unfold Scan.escapeStep
  split
  next => exact h
  next =>
    split
    next => exact h
    next => exact h.fail

/-- Reading one character leaves nothing missing. -/
theorem Whole.step (h : s.Whole) (c : Char) : (s.step c).Whole := by
  unfold Scan.step
  split
  case h_1 => exact h.idleStep c
  case h_2 => exact h.textStep _ c
  case h_3 => exact h.escapeStep _ c
  case h_4 =>
    split
    next => exact h.fail
    next => split <;> exact h
  case h_5 =>
    split
    next => exact h
    next => exact h.textStep _ c
  case h_6 =>
    split
    next => exact h
    next => exact h.escapeStep _ c
  case h_7 read _ =>
    have hended : (Scan.endRun s.found read).Whole := Whole.endRun h read
    split
    next => exact h
    next =>
      dsimp only
      split
      next => exact hended
      next => exact hended.idleStep c
  case h_8 => exact h

theorem Whole.finish (h : s.Whole) : ∀ l ∈ s.finish, l.whole = true := by
  intro l hl
  unfold Scan.finish at hl
  split at hl
  next => exact h l (List.mem_reverse.mp hl)
  next => exact h l (List.mem_reverse.mp hl)
  next => exact Whole.endRun h _ l (List.mem_reverse.mp hl)
  next => exact h.fail l (List.mem_reverse.mp hl)

end Scan

theorem whole_lexemes (text : String) : ∀ l ∈ lexemes text, l.whole = true := by
  have hfoldl (cs : List Char) (s : Scan) (h : s.Whole) : (cs.foldl Scan.step s).Whole := by
    induction cs generalizing s with
    | nil => exact h
    | cons c cs ih => exact ih (s.step c) (h.step c)
  have hstart : Scan.Whole ⟨[], .idle⟩ := fun l hl => absurd hl List.not_mem_nil
  exact (hfoldl text.toList _ hstart).finish

theorem isMissing_of_whole {v : Json} (h : v.whole = true) : v.isMissing = false := by
  cases v with
  | missing => cases h
  | _ => rfl

theorem wholeItems_iff {items : List Json} :
    wholeItems items = true ↔ ∀ v ∈ items, v.whole = true := by
  induction items with
  | nil => simp [wholeItems]
  | cons v vs ih => rw [wholeItems, Bool.and_eq_true, ih, List.forall_mem_cons]

theorem wholeMembers_iff {members : List (String × Json)} :
    wholeMembers members = true ↔ ∀ m ∈ members, m.2.whole = true := by
  induction members with
  | nil => simp [wholeMembers]
  | cons m ms ih =>
    obtain ⟨key, v⟩ := m
    rw [wholeMembers, Bool.and_eq_true, ih, List.forall_mem_cons]

theorem whole_array_reverse {items : List Json} (h : ∀ v ∈ items, v.whole = true) :
    whole (.array items.reverse) = true := by
  rw [whole, wholeItems_iff]
  exact fun v hv => h v (List.mem_reverse.mp hv)

theorem whole_object_reverse {members : List (String × Json)} (h : ∀ m ∈ members, m.2.whole = true) :
    whole (.object members.reverse) = true := by
  rw [whole, wholeMembers_iff]
  exact fun m hm => h m (List.mem_reverse.mp hm)

/-- Nothing is missing in what has been read of an open array or object. -/
def Frame.Whole : Frame → Prop
  | .array items => ∀ v ∈ items, v.whole = true
  | .member members _ => ∀ m ∈ members, m.2.whole = true

namespace Reading

/-- Nothing is missing in what has been read so far, unless reading has failed. -/
def Whole : Reading → Prop
  | .value frames _ => ∀ f ∈ frames, f.Whole
  | .afterItem items frames => (∀ v ∈ items, v.whole = true) ∧ ∀ f ∈ frames, f.Whole
  | .key members frames _ => (∀ m ∈ members, m.2.whole = true) ∧ ∀ f ∈ frames, f.Whole
  | .colon members _ frames => (∀ m ∈ members, m.2.whole = true) ∧ ∀ f ∈ frames, f.Whole
  | .afterMember members frames => (∀ m ∈ members, m.2.whole = true) ∧ ∀ f ∈ frames, f.Whole
  | .done d => d.closed = true → d.value.whole = true

theorem whole_place {v : Json} {frames : List Frame} (hv : v.whole = true)
    (h : ∀ f ∈ frames, f.Whole) : (place v frames).Whole := by
  cases frames with
  | nil => exact fun _ => hv
  | cons f frames =>
    obtain ⟨hf, hframes⟩ := List.forall_mem_cons.mp h
    cases f with
    | array items => exact ⟨List.forall_mem_cons.mpr ⟨hv, hf⟩, hframes⟩
    | member members key => exact ⟨List.forall_mem_cons.mpr ⟨hv, hf⟩, hframes⟩

theorem whole_fail (r : Reading) : r.fail.Whole := nofun

/-- Reading one lexeme leaves nothing missing, unless it fails. -/
theorem Whole.step {r : Reading} (h : r.Whole) (limit : Option Nat) {l : Lexeme}
    (hl : l.whole = true) : (step limit r l).Whole := by
  have hnil : ∀ v ∈ ([] : List Json), v.whole = true := fun v hv => absurd hv List.not_mem_nil
  unfold Reading.step
  split
  next => exact whole_place rfl h
  next => exact whole_place hl h
  next =>
    split
    next => exact List.forall_mem_cons.mpr ⟨hnil, h⟩
    next => exact whole_fail _
  next =>
    split
    next => exact ⟨nofun, h⟩
    next => exact whole_fail _
  next =>
    obtain ⟨hitems, hframes⟩ := List.forall_mem_cons.mp h
    exact whole_place (whole_array_reverse hitems) hframes
  next => exact List.forall_mem_cons.mpr ⟨h.1, h.2⟩
  next => exact whole_place (whole_array_reverse h.1) h.2
  next => exact h
  next => exact whole_place (whole_object_reverse h.1) h.2
  next => exact List.forall_mem_cons.mpr ⟨h.1, h.2⟩
  next => exact h
  next => exact whole_place (whole_object_reverse h.1) h.2
  next => exact whole_fail _

theorem Whole.foldl {r : Reading} (h : r.Whole) (limit : Option Nat) {ls : List Lexeme}
    (hls : ∀ l ∈ ls, l.whole = true) : (ls.foldl (Reading.step limit) r).Whole := by
  induction ls generalizing r with
  | nil => exact h
  | cons l ls ih =>
    obtain ⟨hl, hls⟩ := List.forall_mem_cons.mp hls
    exact ih (h.step limit hl) hls

theorem Whole.abandon {r : Reading} (h : r.Whole) (hclosed : r.abandon.closed = true) :
    r.abandon.value.whole = true := by
  cases r with
  | done d => exact h hclosed
  | _ => cases hclosed

end Reading

end RepairCorpus.Json
