import RepairCorpus.Proofs.Json.FiniteNumbers
import RepairCorpus.Proofs.Syntax.Documents
import RepairCorpus.Proofs.Syntax.FieldDefaults
import RepairCorpus.Proofs.Syntax.Nodes

/-!
# Trees of finite numbers

A tree can be written without loss if the numbers of its literals are finite.  Every tree that has been
read is such a tree, provided that the numbers of its document are finite, which those of a text always
are; the literals that come from integers are finite because integers are.

* `Node.Finite`: all numbers of a tree's literals are finite.
* `Node.finite_of_ofJson`: **a tree that is read from finite numbers is finite.**
-/

namespace RepairCorpus

variable {α : Type}

/-! ## Numbers that can be written -/

/-- Whether a value can be written: numbers that are not finite cannot. -/
def LiteralValue.isFinite : LiteralValue → Bool
  | .number x => x.isFinite
  | _ => true

/-- Whether the content of a field is no number that is not finite. -/
def Field.isFinite : Field α → Bool
  | .value v => v.isFinite
  | _ => true

/-- Whether a construct is no literal of a number that is not finite. -/
def Form.isFinite : Form α → Bool
  | .literal value _ _ => value.isFinite
  | _ => true

theorem Form.isFinite_iff (form : Form α) :
    form.isFinite = true ↔ ∀ f ∈ form.toFields, f.2.isFinite = true := by
  cases form <;> simp [isFinite, toFields, Field.isFinite]

/-- Whether all numbers of a tree's literals are finite. -/
def Node.Finite (n : Node) : Prop := ∀ m ∈ n.nodes, m.form.isFinite = true

theorem Node.finite_mk (own underlying : Tag) (form : Form Node) :
    Finite ⟨own, underlying, form⟩ ↔ form.isFinite = true ∧ ∀ c ∈ form.children, Finite c := by
  rw [Finite, nodes_mk, List.forall_mem_cons]
  refine and_congr_right fun _ => ?_
  simp only [List.mem_flatMap, Finite]
  constructor
  · intro h c hc m hm
    exact h m ⟨c, hc, hm⟩
  · rintro h m ⟨c, hc, hm⟩
    exact h c hc m hm

/-! ## What is read can be written -/

/-- Whether a value is no number that is not finite. -/
def Json.isFiniteNumber : Json → Bool
  | .number (.binary x) => x.isFinite
  | _ => true

/-- Whether all numbers in a value are finite, as they are in every value that comes from a text. -/
def Json.finite (v : Json) : Bool := v.every Json.isFiniteNumber

/-- Whether all numbers in the content of a field are finite. -/
def Field.Finite (f : Field Node) : Prop := f.isFinite = true ∧ ∀ c ∈ f.parts, c.Finite

theorem exists_left_of_mem {γ δ : Type} {R : γ → δ → Prop} {xs : List γ} {ys : List δ}
    (h : List.Forall₂ R xs ys) {y : δ} (hy : y ∈ ys) : ∃ x ∈ xs, R x y := by
  induction h with
  | nil => cases hy
  | cons hxy _ ih =>
    rcases List.mem_cons.mp hy with rfl | hy
    · exact ⟨_, List.mem_cons_self, hxy⟩
    · obtain ⟨x, hx, hxy⟩ := ih hy
      exact ⟨x, List.mem_cons_of_mem _ hx, hxy⟩

namespace Node

/-- Every field that is read is read from a member. -/
theorem exists_member_of_readFields {kind : Kind} {seen : List String} {ms : List (String × Json)}
    {fields : List (String × Field Node)} (h : readFields kind seen ms = .ok fields) :
    ∀ f ∈ fields, ∃ m ∈ ms, ∃ sort, Field.ofJson sort m.2 = .ok f.2 := by
  induction ms generalizing seen fields with
  | nil =>
    rw [readFields] at h
    cases h
    exact fun f hf => absurd hf List.not_mem_nil
  | cons m ms ih =>
    obtain ⟨key, v⟩ := m
    have hlater {seen : List String} {fields : List (String × Field Node)}
        (h : readFields kind seen ms = .ok fields) :
        ∀ f ∈ fields, ∃ m ∈ (key, v) :: ms, ∃ sort, Field.ofJson sort m.2 = .ok f.2 := by
      intro f hf
      obtain ⟨m, hm, hread⟩ := ih h f hf
      exact ⟨m, List.mem_cons_of_mem _ hm, hread⟩
    cases hsort : kind.fieldSort? key with
    | none =>
      rw [readFields_cons_none hsort] at h
      exact hlater h
    | some sort =>
      by_cases hseen : key ∈ seen
      · rw [readFields, hsort] at h
        dsimp only at h
        rw [if_pos hseen] at h
        cases h
      · rw [readFields_cons_some hsort hseen, Except.bind_eq_ok_iff] at h
        obtain ⟨field, hfield, h⟩ := h
        obtain ⟨others, hothers, heq⟩ := Except.bind_eq_ok_iff.mp h
        cases heq
        intro f hf
        rcases List.mem_cons.mp hf with rfl | hf
        · exact ⟨(key, v), List.mem_cons_self, sort, hfield⟩
        · exact hlater hothers f hf

theorem finite_of_assemble {tags : FoundTags} {kind : Kind} {fields : List (String × Field Node)}
    {n : Node} (h : assemble tags kind fields = .ok n) (hfields : ∀ f ∈ fields, Field.Finite f.2) :
    n.Finite := by
  rw [assemble] at h
  split at h
  next form hform =>
    cases h
    have hall : ∀ f ∈ form.toFields, Field.Finite f.2 := by
      refine Form.forall_toFields_of_ofFields hform hfields fun name d hd => ⟨?_, fun c hc => ?_⟩
      · obtain ⟨-, rfl⟩ | ⟨-, rfl⟩ | ⟨-, rfl⟩ | ⟨sort, -, hd⟩ := Kind.default?_cases hd
        · rfl
        · rfl
        · rfl
        · cases sort <;> cases hd <;> rfl
      · rw [Kind.parts_of_default? hd] at hc
        cases hc
    refine (finite_mk _ _ form).mpr ⟨?_, fun c hc => ?_⟩
    · exact (Form.isFinite_iff form).mpr fun f hf => (hall f hf).1
    · rw [Form.children_eq_parts] at hc
      obtain ⟨f, hf, hc⟩ := List.mem_flatMap.mp hc
      exact (hall f hf).2 c hc
  next => cases h

theorem finite_of_ofPart_object {ms : List (String × Json)}
    (hms : ∀ m ∈ ms, ∀ sort f, Field.ofJson sort m.2 = .ok f → f.Finite) {n : Node}
    (h : ofPart (.object ms) = .ok n) : n.Finite := by
  rw [ofPart] at h
  obtain ⟨tags, -, h⟩ := Except.bind_eq_ok_iff.mp h
  obtain ⟨kind, -, h⟩ := Except.bind_eq_ok_iff.mp h
  obtain ⟨fields, hfields, hn⟩ := Except.bind_eq_ok_iff.mp h
  refine finite_of_assemble hn fun f hf => ?_
  obtain ⟨m, hm, sort, hread⟩ := exists_member_of_readFields hfields f hf
  exact hms m hm sort f.2 hread

end Node

theorem LiteralValue.isFinite_of_ofJson {v : Json} (hv : v.finite = true) {x : LiteralValue}
    (h : LiteralValue.ofJson v = .ok x) : x.isFinite = true := by
  cases v with
  | number n =>
    cases h
    cases n with
    | integer n => exact Binary64.isFinite_ofInt n
    | binary y =>
      have hy : (Json.number (.binary y)).isFiniteNumber = true := by
        simpa only [Json.finite, Json.every] using hv
      exact hy
  | array vs =>
    obtain ⟨r, -, rfl⟩ := (ofJson_eq_ok_iff_of_not_isLeaf rfl).mp h
    rfl
  | object ms =>
    obtain ⟨r, -, rfl⟩ := (ofJson_eq_ok_iff_of_not_isLeaf rfl).mp h
    rfl
  | missing => cases h
  | null =>
    cases h
    rfl
  | bool b =>
    cases h
    rfl
  | string s =>
    cases h
    rfl

theorem Field.finite_of_isFinite {f : Field Node} (h : f.isFinite = true) (hparts : f.parts = []) :
    f.Finite := by
  refine ⟨h, fun c hc => ?_⟩
  rw [hparts] at hc
  cases hc

theorem Node.finite_of_ofOptionalPart {v : Json} (hpart : ∀ n, ofPart v = .ok n → n.Finite)
    {o : Option Node} (h : ofOptionalPart v = .ok o) : ∀ c ∈ o.toList, c.Finite := by
  rw [ofOptionalPart] at h
  split at h
  next =>
    cases h
    exact fun c hc => absurd hc List.not_mem_nil
  next =>
    obtain ⟨n, hn, rfl⟩ := Except.map_eq_ok_iff.mp h
    exact List.forall_mem_singleton.mpr (hpart n hn)

/-- A field is finite if the trees that may be read for it are. -/
theorem Field.finite_of_trees {v : Json} (hv : v.finite = true)
    (hpart : ∀ n, Node.ofPart v = .ok n → n.Finite)
    (hitems : ∀ items, v = .array items → ∀ x ∈ items, ∀ n, Node.ofPart x = .ok n → n.Finite)
    {sort : FieldSort} {f : Field Node} (h : Field.ofJson sort v = .ok f) : f.Finite := by
  cases sort with
  | node =>
    obtain ⟨n, hn, rfl⟩ := Except.map_eq_ok_iff.mp h
    exact ⟨rfl, List.forall_mem_singleton.mpr (hpart n hn)⟩
  | optionalNode =>
    obtain ⟨o, ho, rfl⟩ := Except.map_eq_ok_iff.mp h
    exact ⟨rfl, Node.finite_of_ofOptionalPart hpart ho⟩
  | nodes =>
    cases v with
    | array items =>
      obtain ⟨ns, hns, rfl⟩ := Except.map_eq_ok_iff.mp h
      refine ⟨rfl, fun c hc => ?_⟩
      obtain ⟨x, hx, hread⟩ := exists_left_of_mem (Node.readList_eq_ok_iff.mp hns) hc
      exact hitems items rfl x hx c hread
    | _ => cases h
  | holes =>
    cases v with
    | array items =>
      obtain ⟨os, hos, rfl⟩ := Except.map_eq_ok_iff.mp h
      refine ⟨rfl, fun c hc => ?_⟩
      obtain ⟨x, hx, hread⟩ :=
        exists_left_of_mem (Node.readHoles_eq_ok_iff.mp hos) (Form.mem_present.mp hc)
      exact Node.finite_of_ofOptionalPart (hitems items rfl x hx) hread c (List.mem_singleton_self c)
    | _ => cases h
  | text =>
    obtain ⟨s, -, rfl⟩ := Except.map_eq_ok_iff.mp h
    exact finite_of_isFinite rfl rfl
  | flag =>
    obtain ⟨b, -, rfl⟩ := Except.map_eq_ok_iff.mp h
    exact finite_of_isFinite rfl rfl
  | value =>
    obtain ⟨x, hx, rfl⟩ := Except.map_eq_ok_iff.mp h
    exact finite_of_isFinite (LiteralValue.isFinite_of_ofJson hv hx) rfl
  | regex =>
    obtain ⟨r, -, rfl⟩ := Except.map_eq_ok_iff.mp h
    exact finite_of_isFinite rfl rfl

/-- **A tree that is read from finite numbers is finite.** -/
theorem Node.finite_of_ofPart {v : Json} (hv : v.finite = true) {n : Node} (h : ofPart v = .ok n) :
    n.Finite := by
  have hfield : v.finite = true → ∀ sort f, Field.ofJson sort v = .ok f → f.Finite := by
    clear hv h
    induction v using Json.induction with
    | array items ih =>
      intro hv sort f
      refine Field.finite_of_trees hv nofun ?_
      rintro _ heq x hx n hn
      cases heq
      have hread : Field.ofJson .node x = .ok (.node n) := Except.map_eq_ok_iff.mpr ⟨n, hn, rfl⟩
      have hnode := ih x hx ((Json.every_array.mp hv).2 x hx) .node (.node n) hread
      exact hnode.2 n (List.mem_singleton_self n)
    | object members ih =>
      intro hv sort f
      refine Field.finite_of_trees hv (fun n hn => ?_) nofun
      exact finite_of_ofPart_object (fun m hm => ih m hm ((Json.every_object.mp hv).2 m hm)) hn
    | leaf v hleaf =>
      intro hv sort f
      refine Field.finite_of_trees hv (fun n hn => ?_) fun items heq => ?_
      · cases v with
        | object members => cases hleaf
        | _ => cases hn
      · rw [heq] at hleaf
        cases hleaf
  have hread : Field.ofJson .node v = .ok (.node n) := Except.map_eq_ok_iff.mpr ⟨n, h, rfl⟩
  exact (hfield hv .node (.node n) hread).2 n (List.mem_singleton_self n)

/-- The same for the outermost node. -/
theorem Node.finite_of_ofJson {v : Json} (hv : v.finite = true) {n : Node} (h : ofJson v = .ok n) :
    n.Finite := by
  cases v with
  | object ms =>
    obtain ⟨tags, -, hpart⟩ := Except.bind_eq_ok_iff.mp h
    exact finite_of_ofPart hv hpart
  | _ => cases h

end RepairCorpus
