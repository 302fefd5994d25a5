import Mathlib.Data.String.Basic
import RepairCorpus.Proofs.Abstraction.HidingInPlace
import RepairCorpus.Proofs.Abstraction.Replacements

/-!
# Unknown words and their numbers

Which nodes hiding replaces can be told from a node and its place: it has to lie below the root and be
an unknown identifier or an unknown literal.  Which number an identifier gets can be told from the
places alone.  `Node.identifiersInOrder` lists those of the unknown identifiers in breadth-first order,
and the identifier that stands in the list behind `i` others gets the number `i + 1` after the counter.
Of trees that are hidden one after the other the lists are put together
(`Node.identifiersOfEach`).

* `Node.at?_hideInPlace`, `Node.counter_hideInPlace`: the numbers in one tree.
* `Node.at?_hideEach`: the numbers in several trees.
* `Node.Replaces`, `Node.Numbers`, `Node.NumbersOn`: what hiding does, by the places of what it replaces and
  of what it numbers, in one tree and in several.
* `Node.hiding_numbers_breadth_first`: **which nodes are replaced, and by what**.
-/

namespace RepairCorpus

/-! ## What is hidden -/

theorem identifierPlaceholder_inj {a b : Nat}
    (h : identifierPlaceholder (some a) = identifierPlaceholder (some b)) : a = b := by
  have hletters : "__abs__identifier__" ++ Text.ofNat a ++ "__"
      = "__abs__identifier__" ++ Text.ofNat b ++ "__" := h
  rw [String.append_left_inj, String.append_right_inj] at hletters
  exact Text.ofNat_inj.mp hletters

namespace Form

variable {α : Type} (known : String → Bool)

/-- Whether a construct is an identifier whose name is not known. -/
def UnknownIdentifier (form : Form α) : Prop :=
  ∃ name, form = .identifier name ∧ known name = false

/-- Whether a construct is a literal whose token is not known, and which has the parts of a regular
expression, or a number, a text or a regular expression for its value. -/
def UnknownLiteral (form : Form α) : Prop :=
  ∃ value raw regex, form = .literal value raw regex ∧ known (literalToken raw) = false ∧
    (regex.isSome ∨ (∃ x, value = .number x) ∨ (∃ s, value = .text s) ∨ ∃ r, value = .regex r)

variable {known} {form : Form α}

theorem disguise_eq_identifier_iff :
    form.disguise known = .identifier ↔ form.UnknownIdentifier known := by
  constructor
  · intro hform
    cases form with
    | identifier name =>
      refine ⟨name, rfl, ?_⟩
      cases h : known name with
      | true => simp [disguise, h] at hform
      | false => rfl
    | literal value raw regex =>
      exfalso
      revert hform
      cases h : known (literalToken raw) <;> cases regex <;> cases value <;> simp [disguise, h]
    | _ => cases hform
  · rintro ⟨name, rfl, h⟩
    simp [disguise, h]

theorem disguise_ne_keep_iff :
    form.disguise known ≠ .keep ↔ form.UnknownIdentifier known ∨ form.UnknownLiteral known := by
  cases form with
  | identifier name =>
    cases h : known name <;> simp [disguise, UnknownIdentifier, UnknownLiteral, h]
  | literal value raw regex =>
    cases h : known (literalToken raw) <;> cases regex <;> cases value <;>
      simp [disguise, UnknownIdentifier, UnknownLiteral, h]
  | _ => simp [disguise, UnknownIdentifier, UnknownLiteral]

end Form

namespace Node

/-- The unknown identifiers below the root of a tree, from those near the root to those far from it
and from left to right. -/
def identifiersInOrder (n : Node) (known : String → Bool) : List Path :=
  (n.unknownIdentifiers known).mergeSort fun p q => p = q ∨ Path.Before p q

section Order

variable (n : Node) (known : String → Bool)

theorem identifiersInOrder_perm :
    (n.identifiersInOrder known).Perm (n.unknownIdentifiers known) := List.mergeSort_perm _ _

theorem pairwise_identifiersInOrder : (n.identifiersInOrder known).Pairwise Path.Before := by
  have htrans : ∀ p q r : Path, decide (p = q ∨ Path.Before p q) = true →
      decide (q = r ∨ Path.Before q r) = true → decide (p = r ∨ Path.Before p r) = true := by
    intro p q r hpq hqr
    rw [decide_eq_true_eq] at hpq hqr ⊢
    rcases hpq with rfl | hpq
    · exact hqr
    · rcases hqr with rfl | hqr
      · exact Or.inr hpq
      · exact Or.inr (hpq.trans hqr)
  have htotal : ∀ p q : Path,
      (decide (p = q ∨ Path.Before p q) || decide (q = p ∨ Path.Before q p)) = true := by
    intro p q
    by_cases hpq : Path.Before p q
    · simp [hpq]
    · by_cases hqp : Path.Before q p
      · simp [hqp]
      · simp [Path.eq_of_not_before hpq hqp]
  have hsorted := List.pairwise_mergeSort htrans htotal (n.unknownIdentifiers known)
  have hnodup : (n.identifiersInOrder known).Nodup :=
    (n.identifiersInOrder_perm known).nodup_iff.mpr (nodup_unknownIdentifiers known n)
  refine (hsorted.and hnodup).imp fun {p q} hpq => ?_
  obtain ⟨hle, hne⟩ := hpq
  exact (of_decide_eq_true hle).resolve_left hne

theorem mem_identifiersInOrder {p : Path} : p ∈ n.identifiersInOrder known ↔
    p ≠ [] ∧ ∃ m, n.at? p = some m ∧ m.form.UnknownIdentifier known := by
  rw [(n.identifiersInOrder_perm known).mem_iff, mem_unknownIdentifiers]
  simp only [Form.disguise_eq_identifier_iff]

/-- An identifier stands in the list behind those that come before it. -/
theorem rank_of_getElem? {p : Path} {i : Nat} (hp : (n.identifiersInOrder known)[i]? = some p) :
    n.rank known p = i := by
  obtain ⟨hi, rfl⟩ := List.getElem?_eq_some_iff.mp hp
  rw [rank, ← (n.identifiersInOrder_perm known).countP_eq]
  exact Path.countP_before_getElem (n.pairwise_identifiersInOrder known) i hi

end Order

/-! ## Which nodes are replaced, and by what -/

section Placeholders

variable (v : Vocabulary) (unique : Bool) (counter : Nat)

theorem at?_hideInPlace {n m : Node} {p : Path} {i : Nat}
    (hp : (n.identifiersInOrder v.contains)[i]? = some p) (hm : n.at? p = some m) :
    (n.hideInPlace v unique counter).tree.at? p = some ⟨m.own, m.underlying,
      .placeholder (identifierPlaceholder (if unique then some (counter + i + 1) else none))⟩ := by
  obtain ⟨hne, k, hk, hunknown⟩ := (mem_identifiersInOrder n v.contains).mp (List.mem_of_getElem? hp)
  cases hm.symm.trans hk
  have hdisguise := Form.disguise_eq_identifier_iff.mpr hunknown
  have hname := hiddenName_eq v unique counter hne hm
  rw [hdisguise, rank_of_getElem? n v.contains hp] at hname
  have hhidden : p ∈ n.maskedPaths (n.hiddenName v unique counter) := by
    rw [mem_maskedPaths_hiddenName, hidesAt_eq_true_iff]
    exact ⟨hne, m, hm, by simp [hdisguise]⟩
  rw [hideInPlace_eq, (hide_eq n v unique counter).1]
  exact at?_masked hhidden hm hname

theorem counter_hideInPlace (n : Node) : (n.hideInPlace v unique counter).counter
    = if unique then counter + (n.identifiersInOrder v.contains).length else counter := by
  rw [hideInPlace_eq, counter_hide, (n.identifiersInOrder_perm v.contains).length_eq]

end Placeholders

/-! ### Several trees -/

/-- The unknown identifiers of some trees, each with the number of its tree: tree by tree, and in
breadth-first order in each. -/
def identifiersOfEach (known : String → Bool) (ns : List Node) : List (Nat × Path) :=
  (ns.mapIdx fun k n => (n.identifiersInOrder known).map (k, ·)).flatten

section Several

variable (known : String → Bool) (v : Vocabulary)

theorem identifiersOfEach_cons (n : Node) (ns : List Node) :
    identifiersOfEach known (n :: ns) = (n.identifiersInOrder known).map (0, ·)
      ++ (identifiersOfEach known ns).map fun place => (place.1 + 1, place.2) := by
  rw [identifiersOfEach, identifiersOfEach, List.mapIdx_cons, List.flatten_cons, List.map_flatten]
  refine congrArg (_ ++ List.flatten ·) (List.ext_getElem? fun k => ?_)
  simp [Function.comp_def]

theorem mem_identifiersOfEach {ns : List Node} {k : Nat} {p : Path} :
    (k, p) ∈ identifiersOfEach known ns ↔
      ∃ n, ns[k]? = some n ∧ p ∈ n.identifiersInOrder known := by
  induction ns generalizing k with
  | nil => simp [identifiersOfEach]
  | cons n ns ih =>
    rw [identifiersOfEach_cons, List.mem_append]
    cases k with
    | zero => simp
    | succ k =>
      rw [List.getElem?_cons_succ, ← ih]
      simp

theorem nodup_identifiersOfEach (ns : List Node) : (identifiersOfEach known ns).Nodup := by
  induction ns with
  | nil => exact List.nodup_nil
  | cons n ns ih =>
    rw [identifiersOfEach_cons, List.nodup_append']
    refine ⟨?_, ?_, ?_⟩
    · refine List.Nodup.map (fun p q hpq => (Prod.mk.inj hpq).2) ?_
      exact (n.identifiersInOrder_perm known).nodup_iff.mpr (nodup_unknownIdentifiers known n)
    · refine List.Nodup.map (fun a b hab => ?_) ih
      obtain ⟨hk, hp⟩ := Prod.mk.inj hab
      exact Prod.ext (Nat.succ.inj hk) hp
    · -- the number of the first tree is nobody else's
      intro place hplace hplace'
      obtain ⟨p, -, rfl⟩ := List.mem_map.mp hplace
      obtain ⟨other, -, hother⟩ := List.mem_map.mp hplace'
      exact Nat.succ_ne_zero _ (Prod.mk.inj hother).1

/-- **Trees that are hidden one after the other number their identifiers on.** -/
theorem at?_hideEach {ns : List Node} {counter i k : Nat} {p : Path}
    (h : (identifiersOfEach v.contains ns)[i]? = some (k, p)) :
    ∃ n hidden m, ns[k]? = some n ∧ (hideEach v true ns counter)[k]? = some hidden ∧
      n.at? p = some m ∧ hidden.tree.at? p = some ⟨m.own, m.underlying,
        .placeholder (identifierPlaceholder (some (counter + i + 1)))⟩ := by
  induction ns generalizing counter i k with
  | nil => simp [identifiersOfEach] at h
  | cons n ns ih =>
    rw [identifiersOfEach_cons] at h
    rcases Nat.lt_or_ge i (n.identifiersInOrder v.contains).length with hi | hi
    · rw [List.getElem?_append_left (by simpa using hi), List.getElem?_map] at h
      obtain ⟨q, hq, hkp⟩ := Option.map_eq_some_iff.mp h
      obtain ⟨rfl, rfl⟩ := Prod.mk.inj hkp
      obtain ⟨-, m, hm, -⟩ := (mem_identifiersInOrder n v.contains).mp (List.mem_of_getElem? hq)
      exact ⟨n, _, m, rfl, rfl, hm, at?_hideInPlace v true counter hq hm⟩
    · rw [List.getElem?_append_right (by simpa using hi), List.getElem?_map, List.length_map] at h
      obtain ⟨⟨j, q⟩, hq, hkp⟩ := Option.map_eq_some_iff.mp h
      obtain ⟨rfl, rfl⟩ := Prod.mk.inj hkp
      have hnumber : (n.hideInPlace v true counter).counter
          + (i - (n.identifiersInOrder v.contains).length) + 1 = counter + i + 1 := by
        rw [counter_hideInPlace]
        simp only [if_true]
        omega
      rw [← hnumber]
      exact ih hq

end Several

/-! ### The law of hiding -/

/-- `Replaces n v done replaced` holds if a tree in which words have been hidden has placeholders at these
places and nowhere else. -/
structure Replaces (n : Node) (v : Vocabulary) (done : Hidden) (replaced : List Path) : Prop where
  nodup : replaced.Nodup
  counted : done.replaced = replaced.length
  /-- The places are those below the root of an identifier whose name is not known, or of a literal whose
  token is not known and which has the parts of a regular expression or a number, a text or a regular
  expression for its value. -/
  unknown : ∀ p, p ∈ replaced ↔ p ≠ [] ∧ ∃ m, n.at? p = some m ∧
    (m.form.UnknownIdentifier v.contains ∨ m.form.UnknownLiteral v.contains)
  /-- What stood there gives way to a placeholder with both of its tags. -/
  hidden : ∀ p ∈ replaced, ∃ m name, n.at? p = some m ∧
    done.tree.at? p = some ⟨m.own, m.underlying, .placeholder name⟩
  kept : ∀ p m, n.at? p = some m → p ∉ replaced → Kept n done.tree p

/-- `Numbers n v unique counter done identifiers` holds if hiding words in a tree numbers the unknown
identifiers in order of their distance from the root and then from left to right. -/
structure Numbers (n : Node) (v : Vocabulary) (unique : Bool) (counter : Nat) (done : Hidden)
    (identifiers : List Path) : Prop where
  ordered : identifiers.Pairwise Path.Before
  unknown : ∀ p, p ∈ identifiers ↔
    p ≠ [] ∧ ∃ m, n.at? p = some m ∧ m.form.UnknownIdentifier v.contains
  /-- If numbers are asked for, they follow on the counter without gaps. -/
  numbered : ∀ i p m, identifiers[i]? = some p → n.at? p = some m →
    done.tree.at? p = some ⟨m.own, m.underlying, .placeholder
      (identifierPlaceholder (if unique then some (counter + i + 1) else none))⟩
  /-- The counter ends at the last number. -/
  counted : done.counter = if unique then counter + identifiers.length else counter

/-- `NumbersOn v counter ns places` holds if trees that are hidden one after the other number the unknown
identifiers of all of them, which have these places, each in the tree with a number of its own. -/
structure NumbersOn (v : Vocabulary) (counter : Nat) (ns : List Node) (places : List (Nat × Path)) :
    Prop where
  nodup : places.Nodup
  unknown : ∀ (k : Nat) (p : Path), (k, p) ∈ places ↔ ∃ t, ns[k]? = some t ∧
    p ≠ [] ∧ ∃ m, t.at? p = some m ∧ m.form.UnknownIdentifier v.contains
  /-- No number is left out. -/
  numbered : ∀ (i k : Nat) (p : Path), places[i]? = some (k, p) →
    ∃ (t : Node) (hidden : Hidden) (m : Node), ns[k]? = some t ∧
      (hideEach v true ns counter)[k]? = some hidden ∧ t.at? p = some m ∧
      hidden.tree.at? p = some ⟨m.own, m.underlying,
        .placeholder (identifierPlaceholder (some (counter + i + 1)))⟩
  /-- No number is shared. -/
  distinct : ∀ i j, identifierPlaceholder (some (counter + i + 1))
    = identifierPlaceholder (some (counter + j + 1)) → i = j

theorem replaces_hideInPlace (n : Node) (v : Vocabulary) (unique : Bool) (counter : Nat) :
    n.Replaces v (n.hideInPlace v unique counter) (n.maskedPaths (n.hiddenName v unique counter)) := by
  have hdone : n.hideInPlace v unique counter = n.hide v unique counter := hideInPlace_eq n v unique counter
  have hmem (p : Path) : p ∈ n.maskedPaths (n.hiddenName v unique counter) ↔ p ≠ [] ∧
      ∃ m, n.at? p = some m ∧
        (m.form.UnknownIdentifier v.contains ∨ m.form.UnknownLiteral v.contains) := by
    rw [mem_maskedPaths_hiddenName, hidesAt_eq_true_iff]
    simp only [Form.disguise_ne_keep_iff]
  refine ⟨nodup_maskedPaths n _, ?_, hmem, fun p hp => ?_, fun p m hm hp => ?_⟩
  · rw [hdone]
    exact (hide_eq n v unique counter).2
  · obtain ⟨⟨m, hm⟩, ⟨name, hname⟩, -⟩ := mem_maskedPaths.mp hp
    refine ⟨m, name, hm, ?_⟩
    rw [hdone, (hide_eq n v unique counter).1]
    exact at?_masked hp hm hname
  · rw [mem_maskedPaths_hiddenName, Bool.not_eq_true] at hp
    rw [hdone]
    exact kept_hide n v unique counter p hm hp

theorem numbers_hideInPlace (n : Node) (v : Vocabulary) (unique : Bool) (counter : Nat) :
    n.Numbers v unique counter (n.hideInPlace v unique counter) (n.identifiersInOrder v.contains) where
  ordered := n.pairwise_identifiersInOrder v.contains
  unknown _ := mem_identifiersInOrder n v.contains
  numbered _ _ _ hp hm := at?_hideInPlace v unique counter hp hm
  counted := counter_hideInPlace v unique counter n

theorem numbersOn_hideEach (v : Vocabulary) (counter : Nat) (ns : List Node) :
    NumbersOn v counter ns (identifiersOfEach v.contains ns) where
  nodup := nodup_identifiersOfEach v.contains ns
  unknown k p := by simp only [mem_identifiersOfEach, mem_identifiersInOrder]
  numbered _ _ _ hp := at?_hideEach v hp
  distinct i j hij := by
    have hnumber := identifierPlaceholder_inj hij
    omega

/-- **Hiding replaces exactly the unknown words and numbers identifiers breadth first**, in one tree and
on through several.  A tree that is hidden alone starts from zero. -/
theorem hiding_numbers_breadth_first (n : Node) (v : Vocabulary) (unique : Bool) (counter : Nat) :
    (∃ replaced, n.Replaces v (n.hideInPlace v unique counter) replaced) ∧
    (∃ identifiers, n.Numbers v unique counter (n.hideInPlace v unique counter) identifiers) ∧
    (∀ ns, ∃ places, NumbersOn v counter ns places) ∧
    n.hideAlone v unique = n.hideInPlace v unique 0 :=
  ⟨⟨_, replaces_hideInPlace n v unique counter⟩, ⟨_, numbers_hideInPlace n v unique counter⟩,
    fun ns => ⟨_, numbersOn_hideEach v counter ns⟩, rfl⟩

end Node

end RepairCorpus
