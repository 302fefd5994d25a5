import RepairCorpus.Proofs.Abstraction.Stretches

/-!
# Hidden words

Hiding unknown words changes a sequence word by word: `Node.hide_renames_tokens`.  Like collapsing
it is a mask, so a sequence is cut into stretches, but here every run that is cut out is a single
token, since the only nodes that are hidden are identifiers and literals.  The sequence before and
after hiding can therefore be laid side by side, and the labels of the tokens do not change at all.
`Cuts.after_eq` says which tokens do.

Identifiers and literals have no parts, so no hidden node lies below another one, and the hidden
nodes are simply those that `Node.hidesAt` tells, wherever they are.
-/

namespace RepairCorpus

/-! ## Renaming tokens -/

namespace Traced

/-- Puts the name a mask has for the origin of a token in its place.  Boundary tokens stay. -/
def renamed (names : Mask) (t : Traced) : Traced :=
  if t.boundary then t else { t with token := (names t.path).getD t.token }

/-- The origin of a token that is renamed. -/
def renamedPath? (names : Mask) (t : Traced) : Option Path :=
  if t.boundary then none else (names t.path).map fun _ => t.path

theorem renamed_of_boundary {names : Mask} {t : Traced} (h : t.boundary = true) :
    t.renamed names = t := if_pos h

theorem renamed_of_none {names : Mask} {t : Traced} (h : names t.path = none) :
    t.renamed names = t := by
  unfold renamed
  split
  · rfl
  · rw [h]
    rfl

theorem renamedPath?_of_boundary {names : Mask} {t : Traced} (h : t.boundary = true) :
    t.renamedPath? names = none := if_pos h

theorem renamedPath?_of_none {names : Mask} {t : Traced} (h : names t.path = none) :
    t.renamedPath? names = none := by
  unfold renamedPath?
  rw [h, Option.map_none, ite_self]

theorem isSome_renamedPath? (names : Mask) (t : Traced) :
    (t.renamedPath? names).isSome = (!t.boundary && (names t.path).isSome) := by
  unfold renamedPath?
  cases t.boundary with
  | true => rfl
  | false => exact Option.isSome_map

theorem renamedPath?_eq_some_iff {names : Mask} {t : Traced} {p : Path} :
    t.renamedPath? names = some p ↔
      t.boundary = false ∧ t.path = p ∧ ∃ name, names p = some name := by
  unfold renamedPath?
  cases t.boundary with
  | true => exact iff_of_false nofun nofun
  | false =>
    rw [if_neg Bool.false_ne_true, Option.map_eq_some_iff, and_iff_right rfl]
    constructor
    · rintro ⟨name, hname, rfl⟩
      exact ⟨rfl, name, hname⟩
    · rintro ⟨rfl, name, hname⟩
      exact ⟨name, hname, rfl⟩

end Traced

namespace Stretch

/-- Whether a stretch that is cut out has a single token. -/
def IsWord : Stretch → Prop
  | kept _ => True
  | cut _ _ _ run => ∃ t, run = [⟨t, [], false⟩]

/-- Cutting a single token out renames it. -/
theorem Fits.after_eq {n : Node} {names : Mask} {s : Stretch} (h : s.Fits n names)
    (hs : s.IsWord) : s.after = s.before.map (Traced.renamed names) := by
  cases s with
  | kept t => exact congrArg ([·]) (Traced.renamed_of_none (h t.path (List.prefix_refl _))).symm
  | cut p m name run =>
    obtain ⟨t, rfl⟩ := hs
    obtain ⟨-, hname, -⟩ := h
    have hword : Traced.renamed names ⟨t, p ++ [], false⟩ = ⟨name, p ++ [], false⟩ := by
      rw [Traced.renamed, if_neg Bool.false_ne_true, List.append_nil, hname]
      rfl
    rw [before, after, List.map_map]
    unfold Tag.enclose
    split
    · exact congrArg (fun u => [_, u, _]) hword.symm
    · exact congrArg ([·]) hword.symm

/-- The token that is cut out comes from the node that is replaced. -/
theorem Fits.renamedPaths {n : Node} {names : Mask} {s : Stretch} (h : s.Fits n names)
    (hs : s.IsWord) : s.before.filterMap (Traced.renamedPath? names) = s.path?.toList := by
  cases s with
  | kept t =>
    exact List.filterMap_cons_none (Traced.renamedPath?_of_none (h t.path (List.prefix_refl _)))
  | cut p m name run =>
    obtain ⟨t, rfl⟩ := hs
    obtain ⟨-, hname, -⟩ := h
    have hword : Traced.renamedPath? names ⟨t, p ++ [], false⟩ = some p :=
      Traced.renamedPath?_eq_some_iff.mpr ⟨rfl, List.append_nil p, name, hname⟩
    rw [before]
    unfold Tag.enclose
    split
    · -- the boundary tokens around the word are not renamed
      refine (List.filterMap_cons_none (Traced.renamedPath?_of_boundary rfl)).trans ?_
      refine (List.filterMap_cons_some hword).trans (congrArg (p :: ·) ?_)
      exact List.filterMap_cons_none (Traced.renamedPath?_of_boundary rfl)
    · exact List.filterMap_cons_some hword

end Stretch

namespace Cuts

variable {n : Node} {names : Mask} {stretches : List Stretch} {ts us : List Traced}

/-- If all runs are single tokens, masking renames tokens. -/
theorem after_eq (h : Cuts n names stretches ts us) (hwords : ∀ s ∈ stretches, s.IsWord) :
    us = ts.map (Traced.renamed names) := by
  obtain ⟨rfl, rfl, hfits, -⟩ := h
  rw [List.map_flatMap, List.flatMap_def, List.flatMap_def]
  exact congrArg List.flatten
    (List.map_congr_left fun s hs => (hfits s hs).after_eq (hwords s hs))

/-- If all runs are single tokens, each replaced node has one of them. -/
theorem renamedPaths (h : Cuts n names stretches ts us) (hwords : ∀ s ∈ stretches, s.IsWord) :
    ts.filterMap (Traced.renamedPath? names) = n.maskedPaths names := by
  obtain ⟨rfl, rfl, hfits, hpaths⟩ := h
  rw [← hpaths, List.filterMap_flatMap, List.filterMap_eq_flatMap_toList, List.flatMap_def,
    List.flatMap_def]
  exact congrArg List.flatten
    (List.map_congr_left fun s hs => (hfits s hs).renamedPaths (hwords s hs))

end Cuts

/-! ## Which nodes are hidden -/

namespace Node

/-- Whether hiding replaces the node at a path: it lies below the root and is an identifier or a
literal that is not known. -/
def hidesAt (n : Node) (known : String → Bool) (p : Path) : Bool :=
  !p.isEmpty && (n.at? p).any fun m => m.form.disguise known != .keep

theorem isSome_disguiseName (n : Node) (known : String → Bool) (unique : Bool)
    (before : List Nat) :
    (n.disguiseName known unique before).isSome = (n.form.disguise known != .keep) := by
  unfold disguiseName
  cases n.form.disguise known <;> rfl

theorem isSome_hiddenNameFrom (n : Node) (known : String → Bool) (unique : Bool)
    (before : List Nat) (p : Path) :
    (n.hiddenNameFrom known unique before p).isSome
      = (n.at? p).any fun m => m.form.disguise known != .keep := by
  induction p generalizing n before with
  | nil =>
    rw [hiddenNameFrom, at?_nil, Option.any_some]
    exact isSome_disguiseName n known unique before
  | cons i p ih =>
    rw [hiddenNameFrom, at?_cons]
    cases n.children[i]? with
    | none => rfl
    | some c => exact ih c _

/-- Exactly the hidden nodes get names. -/
theorem isSome_hiddenName (n : Node) (v : Vocabulary) (unique : Bool) (counter : Nat) (p : Path) :
    (n.hiddenName v unique counter p).isSome = n.hidesAt v.contains p := by
  cases p with
  | nil => rfl
  | cons i p =>
    rw [hiddenName, hidesAt, at?_cons]
    cases n.children[i]? with
    | none => rfl
    | some c => exact isSome_hiddenNameFrom c _ _ _ p

end Node

/-- What is hidden has no parts. -/
theorem Form.children_of_disguise {α : Type} {known : String → Bool} {form : Form α}
    (h : form.disguise known ≠ .keep) : form.children = [] := by
  cases form with
  | identifier name => rfl
  | literal value raw regex => rfl
  | _ => exact absurd rfl h

/-- What is hidden is written with one token. -/
theorem Form.numbered_of_disguise {α : Type} {known : String → Bool} {form : Form α}
    {position : Position} {ps : List (Piece (Nat × α))} (h : form.disguise known ≠ .keep)
    (hps : form.numbered position = .ok ps) : ∃ t, ps = [.token t] := by
  cases form with
  | identifier name => cases position <;> cases hps <;> exact ⟨name, rfl⟩
  | literal value raw regex =>
    cases position <;> cases hps
    exact ⟨literalToken raw, rfl⟩
  | _ => exact absurd rfl h

namespace Node

theorem hidesAt_eq_true_iff {n : Node} {known : String → Bool} {p : Path} :
    n.hidesAt known p = true ↔ p ≠ [] ∧ ∃ m, n.at? p = some m ∧ m.form.disguise known ≠ .keep := by
  rw [hidesAt, Bool.and_eq_true, Option.any_eq_true]
  refine and_congr (by cases p <;> simp) (exists_congr fun m => and_congr_right fun _ => ?_)
  exact bne_iff_ne

theorem ownTrace_of_disguise {n : Node} {known : String → Bool} {position : Position}
    {ts : List Traced} (h : n.form.disguise known ≠ .keep) (hts : n.ownTrace position = .ok ts) :
    ∃ t, ts = [⟨t, [], false⟩] := by
  obtain ⟨ps, hps, hrun⟩ := ownTrace_eq_ok_iff.mp hts
  obtain ⟨t, rfl⟩ := Form.numbered_of_disguise h hps
  cases hrun
  exact ⟨t, rfl⟩

/-- Nothing lies below a hidden node. -/
theorem eq_of_prefix_of_hidesAt {n m : Node} {known : String → Bool} {p q : Path}
    (hq : n.hidesAt known q = true) (hp : n.at? p = some m) (hqp : q <+: p) : q = p := by
  obtain ⟨r, rfl⟩ := hqp
  obtain ⟨-, k, hk, hkeep⟩ := hidesAt_eq_true_iff.mp hq
  rw [at?_append, hk] at hp
  cases r with
  | nil => exact (List.append_nil q).symm
  | cons i r =>
    have hnone : k.children[i]? = none := by
      rw [children, Form.children_of_disguise hkeep, List.getElem?_nil]
    rw [Option.bind_some, at?_cons, hnone] at hp
    cases hp

variable (v : Vocabulary) (unique : Bool) (counter : Nat)

theorem mem_maskedPaths_hiddenName {n : Node} {p : Path} :
    p ∈ n.maskedPaths (n.hiddenName v unique counter) ↔ n.hidesAt v.contains p = true := by
  have hnamed (q : Path) :
      (∃ name, n.hiddenName v unique counter q = some name) ↔ n.hidesAt v.contains q = true := by
    rw [← isSome_hiddenName n v unique counter q, Option.isSome_iff_exists]
  rw [mem_maskedPaths, hnamed]
  constructor
  · exact fun h => h.2.1
  · intro h
    obtain ⟨-, m, hm, -⟩ := hidesAt_eq_true_iff.mp h
    refine ⟨⟨m, hm⟩, h, fun q hq hne => ?_⟩
    by_contra hname
    obtain ⟨name, hname⟩ := Option.ne_none_iff_exists'.mp hname
    exact hne (eq_of_prefix_of_hidesAt ((hnamed q).mp ⟨name, hname⟩) hm hq)

/-- Every run that hiding cuts out is a single token. -/
theorem isWord_of_fits {n : Node} {s : Stretch}
    (h : s.Fits n (n.hiddenName v unique counter)) : s.IsWord := by
  cases s with
  | kept t => exact trivial
  | cut p m name run =>
    obtain ⟨hm, hname, position, hrun⟩ := h
    have hhides : n.hidesAt v.contains p = true := by
      rw [← isSome_hiddenName n v unique counter p, hname, Option.isSome_some]
    obtain ⟨-, m', hm', hkeep⟩ := hidesAt_eq_true_iff.mp hhides
    cases hm.symm.trans hm'
    exact ownTrace_of_disguise hkeep hrun

end Node

/-! ## The sequence of a tree with hidden words -/

/-- What is read off a list without repetitions is read off one entry only. -/
theorem index_eq_of_nodup_filterMap {α β : Type} {f : α → Option β} {xs : List α}
    (h : (xs.filterMap f).Nodup) {i j : Nat} {x y : α} {b : β} (hi : xs[i]? = some x)
    (hj : xs[j]? = some y) (hx : f x = some b) (hy : f y = some b) : i = j := by
  obtain ⟨hi', rfl⟩ := List.getElem?_eq_some_iff.mp hi
  obtain ⟨hj', rfl⟩ := List.getElem?_eq_some_iff.mp hj
  have hpairs := List.pairwise_iff_getElem.mp (List.pairwise_filterMap.mp h)
  rcases Nat.lt_trichotomy i j with hij | hij | hij
  · exact absurd rfl (hpairs i j hi' hj' hij b hx b hy)
  · exact hij
  · exact absurd rfl (hpairs j i hj' hi' hij b hy b hx)

namespace Node

/-- **Hiding renames tokens.**  Let a tree have a sequence.  Then hiding unknown words gives a tree
whose sequence is as long, and tokens in the same places come from the same nodes.  Boundary tokens
and the tokens of nodes that are not hidden are equal.  Each hidden node holds a placeholder in the
new tree, and it has one token that is not a boundary token; in the new sequence the placeholder's
name stands in that place.  There are as many such places as nodes are counted as replaced. -/
theorem hide_renames_tokens (n : Node) (v : Vocabulary) (unique : Bool) (counter : Nat)
    (ts : List Token) (written : n.sequence = .ok ts) :
    ∃ ss us : List Traced,
      n.tracedSequence = .ok ss ∧ ss.map Traced.token = ts ∧
      (n.hide v unique counter).tree.tracedSequence = .ok us ∧
      (n.hide v unique counter).tree.sequence = .ok (us.map Traced.token) ∧
      us.length = ss.length ∧
      (∀ (j : Nat) (t : Traced), ss[j]? = some t → (t.boundary = true ∨ n.hidesAt v.contains t.path = false) →
        us[j]? = some t) ∧
      (∀ p, n.hidesAt v.contains p = true → ∃ (m : Node) (name : String) (j : Nat) (t : Token), n.at? p = some m ∧
        (n.hide v unique counter).tree.at? p = some (m.asPlaceholder name) ∧
        ss[j]? = some ⟨t, p, false⟩ ∧ us[j]? = some ⟨name, p, false⟩ ∧
        ∀ (k : Nat) (u : Token), ss[k]? = some ⟨u, p, false⟩ → k = j) ∧
      (ss.countP fun t => !t.boundary && n.hidesAt v.contains t.path)
        = (n.hide v unique counter).replaced := by
  obtain ⟨ss, hss, rfl⟩ := exists_tracedSequence written
  obtain ⟨htree, hcount⟩ := hide_eq n v unique counter
  have hnil : n.hiddenName v unique counter [] = none := rfl
  obtain ⟨us, hus, stretches, hcuts⟩ := cuts_tracedSequence hnil hss
  have hwords : ∀ s ∈ stretches, s.IsWord := fun s hs =>
    isWord_of_fits v unique counter (hcuts.fits s hs)
  have hpaths := hcuts.renamedPaths hwords
  rw [htree]
  obtain rfl := hcuts.after_eq hwords
  refine ⟨ss, _, hss, rfl, hus, sequence_of_tracedSequence hus, List.length_map _,
    fun j t hj ht => ?_, fun p hp => ?_, ?_⟩
  · rw [List.getElem?_map, hj]
    refine congrArg some ?_
    rcases ht with ht | ht
    · exact Traced.renamed_of_boundary ht
    · rw [← isSome_hiddenName n v unique counter, Option.isSome_eq_false_iff,
        Option.isNone_iff_eq_none] at ht
      exact Traced.renamed_of_none ht
  · have hmem := (mem_maskedPaths_hiddenName v unique counter).mpr hp
    obtain ⟨⟨m, hm⟩, ⟨name, hname⟩, -⟩ := mem_maskedPaths.mp hmem
    have hfrom (u : Token) :
        Traced.renamedPath? (n.hiddenName v unique counter) ⟨u, p, false⟩ = some p :=
      Traced.renamedPath?_eq_some_iff.mpr ⟨rfl, rfl, name, hname⟩
    have hnodup := nodup_maskedPaths n (n.hiddenName v unique counter)
    rw [← hpaths] at hmem hnodup
    obtain ⟨t, ht, htp⟩ := List.mem_filterMap.mp hmem
    obtain ⟨token, path, boundary⟩ := t
    obtain ⟨rfl, rfl, -⟩ := Traced.renamedPath?_eq_some_iff.mp htp
    obtain ⟨j, hj⟩ := List.mem_iff_getElem?.mp ht
    refine ⟨m, name, j, token, hm, at?_masked (hpaths ▸ hmem) hm hname, hj, ?_, fun k u hk => ?_⟩
    · rw [List.getElem?_map, hj, Option.map_some, Traced.renamed, if_neg Bool.false_ne_true]
      rw [hname]
      rfl
    · exact index_eq_of_nodup_filterMap hnodup hk hj (hfrom u) htp
  · rw [hcount, ← hpaths, List.length_filterMap_eq_countP]
    refine List.countP_congr fun t _ => ?_
    rw [Traced.isSome_renamedPath?, isSome_hiddenName]

/-- A call of a known function with an argument that was inserted and is not known. -/
def loggedCall : Node :=
  untagged (.expressionStatement (untagged (.callExpression (untagged (.identifier "log"))
    [⟨.inserted, .inserted, .identifier "user"⟩, untagged .thisExpression])))

/-- The argument's placeholder is a token of the new sequence, which is as long as the old one. -/
theorem loggedCall_renames_tokens : (∃ ts, loggedCall.sequence = .ok ts ∧ ts.length = 9) ∧
    loggedCall.hidesAt (Vocabulary.ofList ["log"]).contains [0, 1] = true ∧
    ∃ us m name, (loggedCall.hide (.ofList ["log"]) true 0).tree.sequence = .ok us ∧
      us.length = 9 ∧ (loggedCall.hide (.ofList ["log"]) true 0).tree.at? [0, 1]
        = some (Node.asPlaceholder m name) ∧ name ∈ us := by
  have hhides : loggedCall.hidesAt (Vocabulary.ofList ["log"]).contains [0, 1] = true :=
    hidesAt_eq_true_iff.mpr ⟨List.cons_ne_nil 0 [1], _, rfl, by simp [Form.disguise]⟩
  refine ⟨⟨_, rfl, rfl⟩, hhides, ?_⟩
  obtain ⟨ss, us, -, hss, -, hsequence, hlength, -, hhidden, -⟩ :=
    hide_renames_tokens loggedCall (.ofList ["log"]) true 0 _ rfl
  obtain ⟨m, name, j, t, -, hplaceholder, -, hj, -⟩ := hhidden [0, 1] hhides
  refine ⟨_, m, name, hsequence, ?_, hplaceholder, ?_⟩
  · rw [List.length_map, hlength, ← List.length_map Traced.token, hss]
    rfl
  · exact List.mem_map.mpr ⟨_, List.mem_of_getElem? hj, rfl⟩

end Node

end RepairCorpus
