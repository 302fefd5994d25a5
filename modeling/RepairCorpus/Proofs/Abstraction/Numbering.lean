import RepairCorpus.Proofs.Abstraction.HiddenWords
import RepairCorpus.Proofs.Syntax.BreadthFirst

/-!
# The numbers of hidden identifiers

Hidden identifiers are numbered breadth first, but by a walk that goes depth first.  It finds every
number from counts: of the identifiers on each level of a subtree, of those to the left of a subtree,
and of those on the levels above.  Here all these counts are said to be counts of paths.  What they
add up to is the number of unknown identifiers that come before a place (`Node.rank`), and a hidden
identifier gets the number after that.

* `Node.getD_levels`: the counts by level.
* `Node.hiddenNameFrom_eq`: a number inside a subtree.
* `Node.hiddenName_eq`: **the number of an identifier is its place in breadth-first order**.
* `Node.counter_hide`: the counter goes on by the number of hidden identifiers.
-/

namespace RepairCorpus

/-! ## Counts by level -/

theorem getD_addLevels (ns ms : List Nat) (k : Nat) :
    (addLevels ns ms).getD k 0 = ns.getD k 0 + ms.getD k 0 := by
  induction ns generalizing ms k with
  | nil => simp [addLevels]
  | cons n ns ih =>
    cases ms with
    | nil => simp [addLevels]
    | cons m ms =>
      cases k with
      | zero => simp [addLevels]
      | succ k => simpa [addLevels] using ih ms k

theorem getD_foldl_addLevels (start : List Nat) (lss : List (List Nat)) (k : Nat) :
    (lss.foldl addLevels start).getD k 0 = start.getD k 0 + (lss.map fun ls => ls.getD k 0).sum := by
  induction lss generalizing start with
  | nil => simp
  | cons ls lss ih =>
    rw [List.foldl_cons, ih, getD_addLevels, List.map_cons, List.sum_cons, Nat.add_assoc]

/-- A subtree starts where the counts of those to its left have been added. -/
theorem getD_startsFrom (start : List Nat) {lss : List (List Nat)} {i : Nat} (hi : i < lss.length) :
    (startsFrom start lss).getD i [] = (lss.take i).foldl addLevels start := by
  induction lss generalizing start i with
  | nil => exact absurd hi (Nat.not_lt_zero i)
  | cons ls lss ih =>
    cases i with
    | zero => rfl
    | succ i => exact ih (addLevels start ls) (Nat.lt_of_succ_lt_succ hi)

theorem getD_totalsFrom (total : Nat) {ns : List Nat} {k : Nat} (hk : k ≤ ns.length) :
    (totalsFrom total ns).getD k 0 = total + (ns.take k).sum := by
  induction ns generalizing total k with
  | nil =>
    rw [List.length_nil, Nat.le_zero] at hk
    simp [hk, totalsFrom]
  | cons n ns ih =>
    cases k with
    | zero => simp [totalsFrom]
    | succ k =>
      have := ih (total + n) (Nat.le_of_succ_le_succ hk)
      rw [List.take_succ_cons, List.sum_cons, ← Nat.add_assoc, ← this]
      rfl

theorem sum_mapIdx_eq_zero {α : Type} {xs : List α} {f : Nat → α → Nat} (h : ∀ j y, f j y = 0) :
    (xs.mapIdx f).sum = 0 := by
  induction xs generalizing f with
  | nil => rfl
  | cons x xs ih =>
    rw [List.mapIdx_cons, List.sum_cons, h, ih fun j y => h (j + 1) y]

/-- A sum over the entries of a list, when nothing is added behind the entry with a number. -/
theorem sum_mapIdx_eq {α : Type} {xs : List α} {i : Nat} {x : α} (hx : xs[i]? = some x)
    {f : Nat → α → Nat} {g : α → Nat}
    (hleft : ∀ j y, j < i → xs[j]? = some y → f j y = g y) (hright : ∀ j y, i < j → f j y = 0) :
    (xs.mapIdx f).sum = ((xs.take i).map g).sum + f i x := by
  induction xs generalizing i f with
  | nil => simp at hx
  | cons y ys ih =>
    rw [List.mapIdx_cons, List.sum_cons]
    cases i with
    | zero =>
      obtain rfl : y = x := by simpa using hx
      rw [sum_mapIdx_eq_zero fun j z => hright (j + 1) z (Nat.succ_pos j)]
      simp
    | succ i =>
      rw [List.getElem?_cons_succ] at hx
      have hrest := ih hx (f := fun j => f (j + 1))
        (fun j z hj hz => hleft (j + 1) z (Nat.succ_lt_succ hj) hz)
        fun j z hj => hright (j + 1) z (Nat.succ_lt_succ hj)
      rw [hrest, hleft 0 y (Nat.succ_pos i) rfl, List.take_succ_cons, List.map_cons, List.sum_cons,
        Nat.add_assoc]

theorem foldr_add_eq (ns : List Nat) (total : Nat) : ns.foldr (· + ·) total = total + ns.sum := by
  induction ns with
  | nil => rfl
  | cons n ns ih =>
    rw [List.foldr_cons, ih, List.sum_cons]
    omega

/-- What has one of two properties that exclude each other is counted twice over. -/
theorem countP_eq_add {α : Type} {f g h : α → Bool} (hor : ∀ x, h x = true ↔ f x = true ∨ g x = true)
    (hnot : ∀ x, f x = true → g x = false) (xs : List α) :
    xs.countP h = xs.countP f + xs.countP g := by
  induction xs with
  | nil => rfl
  | cons x xs ih =>
    have hx : h x = (f x || g x) := by rw [Bool.eq_iff_iff, hor, Bool.or_eq_true]
    rw [List.countP_cons, List.countP_cons, List.countP_cons, ih, hx]
    cases hf : f x with
    | true => simp [hnot x hf, Nat.add_right_comm]
    | false => simp [Nat.add_assoc]

/-- What hiding calls a construct, when it knows the number of an identifier. -/
def Disguise.name? (number : Option Nat) : Disguise → Option String
  | .keep => none
  | .identifier => some (identifierPlaceholder number)
  | .fixed name => some name

namespace Node

section Levels

variable (known : String → Bool)

/-- Whether an identifier that is not known stands at the end of a path. -/
def unknownAt (n : Node) (p : Path) : Bool :=
  (n.at? p).any fun m => m.form.disguise known = .identifier

theorem unknownAt_cons {n c : Node} {i : Nat} (hc : n.children[i]? = some c) (p : Path) :
    n.unknownAt known (i :: p) = c.unknownAt known p := by
  rw [unknownAt, unknownAt, at?_cons, hc]
  rfl

theorem levels_mk (own underlying : Tag) (form : Form Node) :
    levels known ⟨own, underlying, form⟩ =
      (if form.disguise known = .identifier then 1 else 0)
        :: (form.children.map (levels known)).foldl addLevels [] := by
  rw [levels, fold_mk, ← levels, Form.disguise_map, Form.children_map, List.map_map]
  rfl

theorem levels_eq (n : Node) :
    n.levels known = (if n.form.disguise known = .identifier then 1 else 0)
      :: (n.children.map (levels known)).foldl addLevels [] := by
  obtain ⟨own, underlying, form⟩ := n
  exact levels_mk known own underlying form

/-- Places below the parts are counted part by part. -/
theorem countP_children (n : Node) (f : Path → Bool) :
    ((n.children.mapIdx fun i c => c.paths.countP fun p => f p && n.unknownAt known (i :: p)).sum)
      = (n.children.map fun c => c.paths.countP fun p => f p && c.unknownAt known p).sum := by
  refine congrArg List.sum (List.ext_getElem? fun i => ?_)
  rw [List.getElem?_mapIdx, List.getElem?_map]
  refine Option.map_congr fun c hc => ?_
  simp only [unknownAt_cons known hc]

/-- **The counts by level are counts of paths.** -/
theorem getD_levels (n : Node) (k : Nat) :
    (n.levels known).getD k 0
      = n.paths.countP fun p => decide (p.length = k) && n.unknownAt known p := by
  induction n using Node.induction generalizing k with
  | step own underlying form ih =>
    rw [levels_mk, countP_paths]
    cases k with
    | zero =>
      rw [sum_mapIdx_eq_zero fun _ _ => by simp]
      simp [unknownAt]
    | succ k =>
      have hparts := countP_children known ⟨own, underlying, form⟩ fun p => decide (p.length = k)
      simp only [List.length_cons, Nat.add_right_cancel_iff, hparts]
      rw [List.getD_cons_succ, getD_foldl_addLevels, List.map_map]
      refine congrArg₂ Nat.add ?_ (congrArg List.sum (List.map_congr_left fun c hc => ih c hc k))
      simp

/-! ## Numbers inside a subtree -/

/-- The number of unknown identifiers as far down as the end of a path, to its left. -/
def leftOf (n : Node) (p : Path) : Nat :=
  n.paths.countP fun q => decide (q.length = p.length ∧ q < p) && n.unknownAt known q

theorem leftOf_nil (n : Node) : n.leftOf known [] = 0 := by
  simp [leftOf]

/-- To the left lie whole parts, and what is to the left in the part that the path goes through. -/
theorem leftOf_cons {n c : Node} {i : Nat} (hc : n.children[i]? = some c) (p : Path) :
    n.leftOf known (i :: p)
      = ((n.children.take i).map fun d => (d.levels known).getD p.length 0).sum
        + c.leftOf known p := by
  rw [leftOf, countP_paths, sum_mapIdx_eq hc (g := fun d => (d.levels known).getD p.length 0)]
  · simp [leftOf, unknownAt_cons known hc]
  · intro j d hj hd
    rw [getD_levels]
    simp [unknownAt_cons known hd, List.cons_lt_cons_iff, hj]
  · intro j d hj
    rw [List.countP_eq_zero]
    intro q _
    simp [List.cons_lt_cons_iff, Nat.not_lt_of_lt hj, Nat.ne_of_gt hj]

variable (unique : Bool)

theorem disguiseName_eq (n : Node) (before : List Nat) :
    n.disguiseName known unique before
      = (n.form.disguise known).name? (if unique then some (before.getD 0 0 + 1) else none) := by
  rw [disguiseName]
  have hhead : before.headD 0 = before.getD 0 0 := by cases before <;> rfl
  rw [hhead]
  cases n.form.disguise known <;> rfl

/-- **A number inside a subtree** counts the identifiers on the same level before the subtree and
those to the left inside it. -/
theorem hiddenNameFrom_eq {n m : Node} {p : Path} (hm : n.at? p = some m) (before : List Nat) :
    n.hiddenNameFrom known unique before p
      = (m.form.disguise known).name?
        (if unique then some (before.getD p.length 0 + n.leftOf known p + 1) else none) := by
  induction p generalizing n before with
  | nil =>
    rw [at?_nil] at hm
    cases hm
    rw [hiddenNameFrom, disguiseName_eq, leftOf_nil]
    rfl
  | cons i p ih =>
    rw [at?_cons] at hm
    obtain ⟨c, hc, hcm⟩ := Option.bind_eq_some_iff.mp hm
    have hi : i < (n.children.map (levels known)).length := by
      rw [List.length_map]
      exact (List.getElem?_eq_some_iff.mp hc).1
    rw [hiddenNameFrom, hc]
    show c.hiddenNameFrom known unique ((n.startsOfParts known before.tail).getD i []) p = _
    rw [ih hcm, startsOfParts, getD_startsFrom _ hi, getD_foldl_addLevels, leftOf_cons known hc,
      List.length_cons, ← List.map_take, List.map_map, Nat.add_assoc (before.tail.getD _ _)]
    simp [Function.comp_def, Nat.add_assoc]

/-! ## Numbers in a tree -/

/-- The places below the root of a tree at which identifiers stand that are not known. -/
def unknownIdentifiers (n : Node) : List Path :=
  n.paths.filter fun p => !p.isEmpty && n.unknownAt known p

theorem mem_unknownIdentifiers {n : Node} {p : Path} :
    p ∈ n.unknownIdentifiers known ↔
      p ≠ [] ∧ ∃ m, n.at? p = some m ∧ m.form.disguise known = .identifier := by
  rw [unknownIdentifiers, List.mem_filter, mem_paths, unknownAt]
  constructor
  · rintro ⟨⟨m, hm⟩, hp⟩
    simp only [hm, Option.any_some, Bool.and_eq_true, Bool.not_eq_true', decide_eq_true_eq] at hp
    exact ⟨by simpa using hp.1, m, hm, hp.2⟩
  · rintro ⟨hp, m, hm, hunknown⟩
    exact ⟨⟨m, hm⟩, by simp [hp, hm, hunknown]⟩

theorem nodup_unknownIdentifiers (n : Node) : (n.unknownIdentifiers known).Nodup :=
  n.nodup_paths.filter _

/-- The counts by level below the root. -/
def levelsBelow (n : Node) : List Nat := (n.children.map (levels known)).foldl addLevels []

theorem getD_levelsBelow (n : Node) (k : Nat) :
    (n.levelsBelow known).getD k 0
      = (n.unknownIdentifiers known).countP fun p => p.length = k + 1 := by
  have hlevels := getD_levels known n (k + 1)
  rw [levels_eq, List.getD_cons_succ] at hlevels
  rw [levelsBelow, hlevels, unknownIdentifiers, List.countP_filter]
  refine List.countP_congr fun p _ => ?_
  cases p <;> simp

theorem sum_take_levelsBelow (n : Node) (k : Nat) :
    ((n.levelsBelow known).take k).sum
      = (n.unknownIdentifiers known).countP fun p => p.length ≤ k := by
  induction k with
  | zero =>
    rw [List.take_zero, List.sum_nil, eq_comm, List.countP_eq_zero]
    intro p hp
    simpa using ((mem_unknownIdentifiers known).mp hp).1
  | succ k ih =>
    have hsplit := countP_eq_add (f := fun p : Path => decide (p.length ≤ k))
      (g := fun p : Path => decide (p.length = k + 1)) (h := fun p : Path => decide (p.length ≤ k + 1))
      (fun p => by simp; omega) (fun p => by simp; omega) (n.unknownIdentifiers known)
    rw [hsplit, ← ih, ← getD_levelsBelow, List.take_add_one, List.sum_append]
    refine congrArg (_ + ·) ?_
    rw [List.getD_eq_getElem?_getD]
    cases (n.levelsBelow known)[k]? <;> simp

/-- No identifier lies further down than the counts reach. -/
theorem length_le_of_mem {n : Node} {p : Path} (hp : p ∈ n.unknownIdentifiers known) :
    p.length ≤ (n.levelsBelow known).length := by
  obtain ⟨i, q, rfl⟩ := List.exists_cons_of_ne_nil ((mem_unknownIdentifiers known).mp hp).1
  by_contra hlen
  have hlevel := getD_levelsBelow known n q.length
  have hend : (n.levelsBelow known)[q.length]? = none := by
    rw [List.getElem?_eq_none_iff]
    simp at hlen
    omega
  rw [List.getD_eq_getElem?_getD, hend, Option.getD_none, eq_comm, List.countP_eq_zero] at hlevel
  exact hlevel _ hp (by simp)

/-- The number of unknown identifiers that come before the end of a path, breadth first. -/
def rank (n : Node) (p : Path) : Nat :=
  (n.unknownIdentifiers known).countP fun q => Path.Before q p

/-- What comes before is on a level above, or on the same level to the left. -/
theorem rank_cons (n : Node) (i : Nat) (p : Path) :
    n.rank known (i :: p)
      = ((n.levelsBelow known).take p.length).sum + n.leftOf known (i :: p) := by
  have hleft : n.leftOf known (i :: p) = (n.unknownIdentifiers known).countP fun q =>
      q.length = (i :: p).length ∧ q < i :: p := by
    rw [leftOf, unknownIdentifiers, List.countP_filter]
    refine List.countP_congr fun q _ => ?_
    cases q <;> simp
  rw [rank, sum_take_levelsBelow, hleft]
  refine countP_eq_add (fun q => ?_) (fun q => ?_) _
  · rw [decide_eq_true_eq, decide_eq_true_eq, decide_eq_true_eq, Path.Before, List.length_cons,
      Nat.lt_succ_iff]
  · simp
    omega

end Levels

variable (v : Vocabulary) (unique : Bool) (counter : Nat)

/-- **The number of an identifier is its place in breadth-first order**, counted from the counter. -/
theorem hiddenName_eq {n m : Node} {p : Path} (hp : p ≠ []) (hm : n.at? p = some m) :
    n.hiddenName v unique counter p = (m.form.disguise v.contains).name?
      (if unique then some (counter + n.rank v.contains p + 1) else none) := by
  obtain ⟨i, q, rfl⟩ := List.exists_cons_of_ne_nil hp
  obtain ⟨c, hc, hcm⟩ := Option.bind_eq_some_iff.mp (at?_cons n i q ▸ hm)
  have hi : i < (n.children.map (levels v.contains)).length := by
    rw [List.length_map]
    exact (List.getElem?_eq_some_iff.mp hc).1
  rw [hiddenName, hc]
  show c.hiddenNameFrom v.contains unique ((n.startsOfTree v.contains counter).getD i []) q = _
  rw [hiddenNameFrom_eq v.contains unique hcm]
  cases hdisguise : m.form.disguise v.contains with
  | keep => rfl
  | fixed name => rfl
  | identifier =>
    have hreach := length_le_of_mem v.contains
      ((mem_unknownIdentifiers v.contains).mpr ⟨hp, m, hm, hdisguise⟩)
    have htotal : (totalsFrom counter (n.levelsBelow v.contains)).getD q.length 0
        = counter + ((n.levelsBelow v.contains).take q.length).sum :=
      getD_totalsFrom counter (Nat.le_of_succ_le hreach)
    have hnumber : ((n.startsOfTree v.contains counter).getD i []).getD q.length 0
        + c.leftOf v.contains q = counter + n.rank v.contains (i :: q) := by
      rw [rank_cons, leftOf_cons v.contains hc, startsOfTree, startsOfParts, getD_startsFrom _ hi,
        getD_foldl_addLevels, ← levelsBelow, htotal, ← List.map_take, List.map_map]
      simp [Function.comp_def, Nat.add_assoc]
    rw [hnumber]

/-- **The counter goes on by the number of hidden identifiers.** -/
theorem counter_hide (n : Node) :
    (n.hide v unique counter).counter
      = if unique then counter + (n.unknownIdentifiers v.contains).length else counter := by
  have hsum := sum_take_levelsBelow v.contains n (n.levelsBelow v.contains).length
  rw [List.take_length, List.countP_eq_length.mpr fun p hp => by
    simpa using length_le_of_mem v.contains hp] at hsum
  rw [← hsum, ← foldr_add_eq]
  rfl

end Node

end RepairCorpus
