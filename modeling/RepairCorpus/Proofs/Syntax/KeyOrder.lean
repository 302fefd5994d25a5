import RepairCorpus.Proofs.Syntax.Documents

/-!
# The order of keys

Two documents that differ in the order of keys, or in keys that no reader asks for, are read as the same
tree.  Which keys are asked for depends on where in a document an object stands: where a tree is read
only the tags, the kind and the fields of that kind are, everywhere else all keys may be.

`Place` says what a value is read as, `Alike` which values cannot be told apart there, and `Agree` what
reading them alike means for each of the readers.

* `Alike.of_perm`, `Alike.of_ignored`, `Alike.of_fields`, `alike_sorted`: permuting members, adding a
  member that is ignored, and sorting members give values that are alike.
* `Alike.agree`: **values that are alike are read alike**, as long as no object gives a key twice.
* `Node.ofPart_congr`, `Node.ofJson_congr`, `Node.ofJson_sorted`: the same for whole trees.
-/

namespace RepairCorpus

open Json (keys)

/-! ## Places -/

/-- What a value is read as when a tree is read. -/
inductive Place where
  | tree
  | trees
  /-- A tag, a kind, or a field whose content has no trees. -/
  | plain
  deriving DecidableEq

/-- The kind that members name, if it can be read. -/
def namedKind? (ms : List (String × Json)) : Option Kind :=
  (ms.lookup kindField).bind fun v => (Kind.ofJson v).toOption

namespace Place

/-- What the content of a field is read as. -/
def ofSort : FieldSort → Place
  | .node | .optionalNode => .tree
  | .nodes | .holes => .trees
  | .text | .flag | .value | .regex => .plain

/-- What the items of an array are read as. -/
def item : Place → Place
  | .trees => .tree
  | .tree | .plain => .plain

/-- What the member of a key is read as, unless it is ignored. -/
def member? (ms : List (String × Json)) (key : String) : Place → Option Place
  | .tree =>
    if key ∈ [kindField, ownTagField, underlyingTagField] then some .plain
    else (namedKind? ms).bind fun kind => (kind.fieldSort? key).map ofSort
  | .trees | .plain => some .plain

end Place

/-- `Alike p v w` holds if `v` and `w` say the same to a reader of a `p`: they differ at most in the
order of keys and in members that are ignored. -/
inductive Alike : Place → Json → Json → Prop where
  | refl (p : Place) (v : Json) : Alike p v v
  | array {p : Place} {vs ws : List Json} (hlength : vs.length = ws.length)
      (hitems : ∀ (i : Nat) v w, vs[i]? = some v → ws[i]? = some w → Alike p.item v w) :
      Alike p (.array vs) (.array ws)
  | object {p : Place} {ms ns : List (String × Json)}
      (hkeys : ∀ key q, p.member? ms key = some q →
        (ms.lookup key).isSome = (ns.lookup key).isSome)
      (hvalues : ∀ key q v w, p.member? ms key = some q →
        ms.lookup key = some v → ns.lookup key = some w → Alike q v w) :
      Alike p (.object ms) (.object ns)

/-! ## Readers -/

/-- Whether a value is an object without members. -/
def isEmptyObject : Json → Bool
  | .object [] => true
  | _ => false

/-- `Agree p v w` holds if every reader of a `p` gets the same from `v` as from `w`. -/
structure Agree (p : Place) (v w : Json) : Prop where
  isNull : v.isNull = w.isNull
  isEmpty : p = .plain → isEmptyObject v = isEmptyObject w
  field : ∀ sort, Place.ofSort sort = p → ∀ f, Field.ofJson sort v = .ok f ↔ Field.ofJson sort w = .ok f
  part : p = .plain → ∀ t, Tag.ofPart v = .ok t ↔ Tag.ofPart w = .ok t
  tag : p = .plain → ∀ t, Tag.ofJson v = .ok t ↔ Tag.ofJson w = .ok t
  kind : p = .plain → ∀ k, Kind.ofJson v = .ok k ↔ Kind.ofJson w = .ok k
  text : p = .plain → ∀ s, readOptionalText v = .ok s ↔ readOptionalText w = .ok s

theorem Agree.refl (p : Place) (v : Json) : Agree p v v :=
  ⟨rfl, fun _ => rfl, fun _ _ _ => Iff.rfl, fun _ _ => Iff.rfl, fun _ _ => Iff.rfl, fun _ _ => Iff.rfl,
    fun _ _ => Iff.rfl⟩

/-- Two values are read alike by `g <$> read` if they are by `read`. -/
theorem map_congr_ok {α β : Type} {x y : Except Error α} {g : α → β}
    (h : ∀ a, x = .ok a ↔ y = .ok a) (b : β) : g <$> x = .ok b ↔ g <$> y = .ok b := by
  refine Except.map_eq_ok_iff.trans (Iff.trans ?_ Except.map_eq_ok_iff.symm)
  exact exists_congr fun a => and_congr_left fun _ => h a

theorem map_eq_ok_of_injective {α β : Type} {x : Except Error α} {g : α → β}
    (hg : Function.Injective g) (a : α) : g <$> x = .ok (g a) ↔ x = .ok a := by
  refine Except.map_eq_ok_iff.trans ⟨?_, fun h => ⟨a, h, rfl⟩⟩
  rintro ⟨a', hx, heq⟩
  rw [hx, hg heq]

theorem Agree.ofPart {v w : Json} (h : Agree .tree v w) (n : Node) :
    Node.ofPart v = .ok n ↔ Node.ofPart w = .ok n := by
  have hg : Function.Injective (Field.node (α := Node)) := fun _ _ heq => Field.node.inj heq
  rw [← map_eq_ok_of_injective hg, ← map_eq_ok_of_injective hg]
  exact h.field .node rfl (.node n)

theorem Agree.ofOptionalPart {v w : Json} (h : Agree .tree v w) (o : Option Node) :
    Node.ofOptionalPart v = .ok o ↔ Node.ofOptionalPart w = .ok o := by
  have hg : Function.Injective (Field.optionalNode (α := Node)) :=
    fun _ _ heq => Field.optionalNode.inj heq
  rw [← map_eq_ok_of_injective hg, ← map_eq_ok_of_injective hg]
  exact h.field .optionalNode rfl (.optionalNode o)

/-- Related lists, one item exchanged for another of the same relations. -/
theorem forall₂_congr_left {α β : Type} {R : α → β → Prop} {vs ws : List α} {ns : List β}
    (h : List.Forall₂ (fun v w => ∀ n, R v n ↔ R w n) vs ws) :
    List.Forall₂ R vs ns ↔ List.Forall₂ R ws ns := by
  induction h generalizing ns with
  | nil => exact Iff.rfl
  | cons hvw hrest ih =>
    rw [List.forall₂_cons_left_iff, List.forall₂_cons_left_iff]
    exact exists_congr fun n => exists_congr fun rest =>
      and_congr (hvw n) (and_congr_left fun _ => ih)

/-! ### Tags -/

theorem Tag.ofJsonWith_object_eq_ok_iff {isVoid : Json → Bool} {ms : List (String × Json)} {t : Tag} :
    Tag.ofJsonWith isVoid (.object ms) = .ok t ↔
      ∃ key v, ms = [(key, v)] ∧ Tag.ofText key = .ok t ∧ isVoid v = true := by
  match ms with
  | [] => exact iff_of_false nofun nofun
  | [(key, v)] =>
    refine Except.bind_eq_ok_iff.trans ?_
    constructor
    · rintro ⟨t', ht, hvoid⟩
      split at hvoid
      next h =>
        cases hvoid
        exact ⟨key, v, rfl, ht, h⟩
      next => cases hvoid
    · rintro ⟨key', v', heq, ht, hvoid⟩
      cases heq
      exact ⟨t, ht, if_pos hvoid⟩
  | _ :: _ :: _ => exact iff_of_false nofun nofun

theorem Tag.ofPart_eq (v : Json) :
    Tag.ofPart v = Tag.ofJsonWith (fun v => v.isNull || isEmptyObject v) v := by
  refine congrArg (fun isVoid => Tag.ofJsonWith isVoid v) (funext fun w => ?_)
  cases w with
  | object ms => cases ms <;> rfl
  | _ => rfl

theorem isEmptyObject_congr {ms ns : List (String × Json)}
    (hgiven : ∀ key, (ms.lookup key).isSome = (ns.lookup key).isSome) :
    isEmptyObject (.object ms) = isEmptyObject (.object ns) := by
  cases ms with
  | nil =>
    cases ns with
    | nil => rfl
    | cons n ns =>
      have hkey := hgiven n.1
      rw [List.lookup_nil, List.lookup_cons_self] at hkey
      cases hkey
  | cons m ms =>
    cases ns with
    | nil =>
      have hkey := hgiven m.1
      rw [List.lookup_nil, List.lookup_cons_self] at hkey
      cases hkey
    | cons n ns => rfl

/-- Members with one key are determined by looking it up. -/
theorem eq_singleton_of_lookup {ms : List (String × Json)} {key : String} (hkeys : (keys ms).Nodup)
    (h : ∀ k, (ms.lookup k).isSome = true ↔ k = key) : ∃ v, ms = [(key, v)] := by
  have hperm : (keys ms).Perm [key] :=
    (List.perm_ext_iff_of_nodup hkeys (List.nodup_singleton key)).mpr fun k => by
      rw [← Json.isSome_lookup_iff_keys, h, List.mem_singleton]
  have hsingleton : keys ms = [key] := List.perm_singleton.mp hperm
  obtain ⟨m, rfl, hm⟩ := List.map_eq_singleton_iff.mp hsingleton
  exact ⟨m.2, by rw [← hm]⟩

/-- Objects with alike members are tags alike. -/
theorem Tag.ofJsonWith_object_congr {isVoid : Json → Bool} {ms ns : List (String × Json)}
    (hms : (keys ms).Nodup) (hns : (keys ns).Nodup)
    (hgiven : ∀ key, (ms.lookup key).isSome = (ns.lookup key).isSome)
    (hvoid : ∀ key v w, ms.lookup key = some v → ns.lookup key = some w → isVoid v = isVoid w)
    (t : Tag) :
    Tag.ofJsonWith isVoid (.object ms) = .ok t ↔ Tag.ofJsonWith isVoid (.object ns) = .ok t := by
  have half {ms ns : List (String × Json)} (hns : (keys ns).Nodup)
      (hgiven : ∀ key, (ms.lookup key).isSome = (ns.lookup key).isSome)
      (hvoid : ∀ key v w, ms.lookup key = some v → ns.lookup key = some w → isVoid v = isVoid w)
      (h : Tag.ofJsonWith isVoid (.object ms) = .ok t) :
      Tag.ofJsonWith isVoid (.object ns) = .ok t := by
    obtain ⟨key, v, rfl, ht, hv⟩ := Tag.ofJsonWith_object_eq_ok_iff.mp h
    obtain ⟨w, rfl⟩ : ∃ w, ns = [(key, w)] := eq_singleton_of_lookup hns fun k => by
      rw [← hgiven, Json.isSome_lookup_iff_keys, Json.keys_cons, Json.keys_nil, List.mem_singleton]
    refine Tag.ofJsonWith_object_eq_ok_iff.mpr ⟨key, w, rfl, ht, ?_⟩
    rw [← hvoid key v w List.lookup_cons_self List.lookup_cons_self]
    exact hv
  constructor
  · exact half hns hgiven hvoid
  · exact half hms (fun key => (hgiven key).symm) fun key v w hv hw => (hvoid key w v hw hv).symm

/-! ### Regular expressions -/

theorem Regex.ofJson_array_congr {vs ws : List Json}
    (h : List.Forall₂ (fun v w => ∀ s, readOptionalText v = .ok s ↔ readOptionalText w = .ok s) vs ws)
    (r : Regex) : Regex.ofJson (.array vs) = .ok r ↔ Regex.ofJson (.array ws) = .ok r := by
  have hbind {v w : Json} {f g : Option String → Except Error Regex}
      (hvw : ∀ s, readOptionalText v = .ok s ↔ readOptionalText w = .ok s)
      (hfg : ∀ s, f s = .ok r ↔ g s = .ok r) :
      (readOptionalText v).bind f = .ok r ↔ (readOptionalText w).bind g = .ok r := by
    rw [Except.bind_eq_ok_iff, Except.bind_eq_ok_iff]
    exact exists_congr fun s => and_congr (hvw s) (hfg s)
  match h with
  | .nil => exact Iff.rfl
  | .cons hp .nil => exact hbind hp fun _ => Iff.rfl
  | .cons hp (.cons hf .nil) => exact hbind hp fun _ => hbind hf fun _ => Iff.rfl
  | .cons _ (.cons _ (.cons _ _)) => exact iff_of_false nofun nofun

theorem Regex.ofJson_object_congr {ms ns : List (String × Json)}
    (hms : (keys ms).Nodup) (hns : (keys ns).Nodup)
    (hgiven : ∀ key, (ms.lookup key).isSome = (ns.lookup key).isSome)
    (htext : ∀ key v w, ms.lookup key = some v → ns.lookup key = some w →
      ∀ s, readOptionalText v = .ok s ↔ readOptionalText w = .ok s) (r : Regex) :
    Regex.ofJson (.object ms) = .ok r ↔ Regex.ofJson (.object ns) = .ok r := by
  have hslot (key : String) (after : Option (Option String)) :
      Slot readOptionalText none (ms.lookup key) after ↔
        Slot readOptionalText none (ns.lookup key) after :=
    slot_congr (hgiven key) (htext key)
  rw [Regex.ofJson, Regex.ofJson, FoundRegex.read_eq_ok_iff hms, FoundRegex.read_eq_ok_iff hns]
  refine exists_congr fun pattern => exists_congr fun flags => ?_
  rw [hslot, hslot]

/-! ## Arrays and objects -/

/-- Items that are read alike make arrays that are read alike. -/
theorem agree_array {p : Place} {vs ws : List Json} (h : List.Forall₂ (Agree p.item) vs ws) :
    Agree p (.array vs) (.array ws) where
  isNull := rfl
  isEmpty _ := rfl
  field sort hsort f := by
    cases sort with
    | node => exact iff_of_false nofun nofun
    | optionalNode => exact iff_of_false nofun nofun
    | nodes =>
      subst hsort
      refine map_congr_ok (fun ns => ?_) f
      rw [Node.readList_eq_ok_iff, Node.readList_eq_ok_iff]
      exact forall₂_congr_left (h.imp fun _ _ hagree => hagree.ofPart)
    | holes =>
      subst hsort
      refine map_congr_ok (fun os => ?_) f
      rw [Node.readHoles_eq_ok_iff, Node.readHoles_eq_ok_iff]
      exact forall₂_congr_left (h.imp fun _ _ hagree => hagree.ofOptionalPart)
    | text => exact iff_of_false nofun nofun
    | flag => exact iff_of_false nofun nofun
    | value =>
      subst hsort
      rw [Field.ofJson, Field.ofJson]
      refine map_congr_ok (fun x => ?_) f
      rw [LiteralValue.ofJson_eq_ok_iff_of_not_isLeaf rfl, LiteralValue.ofJson_eq_ok_iff_of_not_isLeaf rfl]
      refine exists_congr fun r => and_congr_left fun _ => ?_
      exact Regex.ofJson_array_congr (h.imp fun _ _ hagree => hagree.text rfl) r
    | regex =>
      subst hsort
      refine map_congr_ok (map_congr_ok fun r => ?_) f
      exact Regex.ofJson_array_congr (h.imp fun _ _ hagree => hagree.text rfl) r
  part _ _ := iff_of_false nofun nofun
  tag _ _ := iff_of_false nofun nofun
  kind _ _ := iff_of_false nofun nofun
  text _ _ := iff_of_false nofun nofun

theorem fieldSort?_of_reserved {key : String} (h : key ∈ [kindField, ownTagField, underlyingTagField])
    (kind : Kind) : kind.fieldSort? key = none := by
  have hall : ∀ key ∈ [kindField, ownTagField, underlyingTagField],
      ∀ kind ∈ Kind.all, Kind.fieldSort? kind key = none := by decide
  exact hall key h kind kind.mem_all

theorem namedKind?_of_slot {ms : List (String × Json)} {kind : Kind}
    (h : Slot Kind.ofJson none (ms.lookup kindField) (some kind)) : namedKind? ms = some kind := by
  rw [namedKind?]
  cases hv : ms.lookup kindField with
  | none =>
    rw [hv] at h
    cases h
  | some v =>
    rw [hv] at h
    obtain ⟨k, hk, heq⟩ := slot_none_some.mp h
    rw [Option.bind_some, hk, heq]
    rfl

/-- Members that are read alike wherever a tree is read make trees that are read alike. -/
theorem ofPart_object_congr {ms ns : List (String × Json)}
    (hms : (keys ms).Nodup) (hns : (keys ns).Nodup)
    (hgiven : ∀ key q, Place.tree.member? ms key = some q →
      (ms.lookup key).isSome = (ns.lookup key).isSome)
    (hagree : ∀ key q v w, Place.tree.member? ms key = some q →
      ms.lookup key = some v → ns.lookup key = some w → Agree q v w) (n : Node) :
    Node.ofPart (.object ms) = .ok n ↔ Node.ofPart (.object ns) = .ok n := by
  have hreserved {key : String} (h : key ∈ [kindField, ownTagField, underlyingTagField]) :
      Place.tree.member? ms key = some .plain := if_pos h
  have htag {key : String} (h : key ∈ [kindField, ownTagField, underlyingTagField])
      (after : Option Tag) :
      Slot Tag.ofPart none (ms.lookup key) after ↔ Slot Tag.ofPart none (ns.lookup key) after :=
    slot_congr (hgiven key _ (hreserved h)) fun v w hv hw =>
      (hagree key _ v w (hreserved h) hv hw).part rfl
  have hkind (kind : Kind) : Slot Kind.ofJson none (ms.lookup kindField) (some kind) ↔
      Slot Kind.ofJson none (ns.lookup kindField) (some kind) :=
    slot_congr (hgiven kindField _ (hreserved (by decide))) fun v w hv hw =>
      (hagree kindField _ v w (hreserved (by decide)) hv hw).kind rfl
  have hfield {kind : Kind} (hnamed : Slot Kind.ofJson none (ms.lookup kindField) (some kind))
      (key : String) (found : Option (Field Node)) :
      FoundField kind key (ms.lookup key) found ↔ FoundField kind key (ns.lookup key) found := by
    rw [FoundField, FoundField]
    split
    next => exact Iff.rfl
    next sort hsort =>
      have hfree : key ∉ [kindField, ownTagField, underlyingTagField] := by
        intro h
        rw [fieldSort?_of_reserved h] at hsort
        cases hsort
      have hplace : Place.tree.member? ms key = some (.ofSort sort) := by
        rw [Place.member?, if_neg hfree, namedKind?_of_slot hnamed, Option.bind_some, hsort,
          Option.map_some]
      exact slot_congr (hgiven key _ hplace) fun v w hv hw =>
        (hagree key _ v w hplace hv hw).field sort rfl
  rw [Node.ofPart_eq_ok_iff hms, Node.ofPart_eq_ok_iff hns]
  refine exists_congr fun tags => exists_congr fun kind => exists_congr fun fields => ?_
  rw [htag (by decide), htag (by decide), ← hkind]
  refine and_congr_right fun _ => and_congr_right fun _ => and_congr_right fun hnamed => ?_
  exact and_congr_left fun _ => forall_congr' fun key => hfield hnamed key _

/-- Objects with nothing but alike members, where all keys are asked for. -/
theorem agree_object_plain {ms ns : List (String × Json)}
    (hms : (keys ms).Nodup) (hns : (keys ns).Nodup)
    (hgiven : ∀ key, (ms.lookup key).isSome = (ns.lookup key).isSome)
    (hagree : ∀ key v w, ms.lookup key = some v → ns.lookup key = some w → Agree .plain v w) :
    Agree .plain (.object ms) (.object ns) where
  isNull := rfl
  isEmpty _ := isEmptyObject_congr hgiven
  field sort hsort f := by
    have hregex := Regex.ofJson_object_congr hms hns hgiven fun key v w hv hw =>
      (hagree key v w hv hw).text rfl
    cases sort with
    | node => cases hsort
    | optionalNode => cases hsort
    | nodes => cases hsort
    | holes => cases hsort
    | text => exact iff_of_false nofun nofun
    | flag => exact iff_of_false nofun nofun
    | value =>
      rw [Field.ofJson, Field.ofJson]
      refine map_congr_ok (fun x => ?_) f
      rw [LiteralValue.ofJson_eq_ok_iff_of_not_isLeaf rfl,
        LiteralValue.ofJson_eq_ok_iff_of_not_isLeaf rfl]
      exact exists_congr fun r => and_congr_left fun _ => hregex r
    | regex => exact map_congr_ok (map_congr_ok hregex) f
  part _ t := by
    rw [Tag.ofPart_eq, Tag.ofPart_eq]
    refine Tag.ofJsonWith_object_congr hms hns hgiven (fun key v w hv hw => ?_) t
    have hvw := hagree key v w hv hw
    rw [hvw.isNull, hvw.isEmpty rfl]
  tag _ t := Tag.ofJsonWith_object_congr hms hns hgiven
    (fun key v w hv hw => (hagree key v w hv hw).isNull) t
  kind _ _ := iff_of_false nofun nofun
  text _ _ := iff_of_false nofun nofun

/-- Objects that are read as a tree. -/
theorem agree_object_tree {ms ns : List (String × Json)}
    (h : ∀ n, Node.ofPart (.object ms) = .ok n ↔ Node.ofPart (.object ns) = .ok n) :
    Agree .tree (.object ms) (.object ns) where
  isNull := rfl
  isEmpty := nofun
  field sort hsort f := by
    cases sort with
    | node => exact map_congr_ok h f
    | optionalNode => exact map_congr_ok (map_congr_ok h) f
    | _ => cases hsort
  part := nofun
  tag := nofun
  kind := nofun
  text := nofun

theorem agree_object_trees {ms ns : List (String × Json)} :
    Agree .trees (.object ms) (.object ns) where
  isNull := rfl
  isEmpty := nofun
  field sort hsort f := by
    cases sort with
    | nodes => exact iff_of_false nofun nofun
    | holes => exact iff_of_false nofun nofun
    | _ => cases hsort
  part := nofun
  tag := nofun
  kind := nofun
  text := nofun

/-- **Values that are alike are read alike.** -/
theorem Alike.agree {p : Place} {v w : Json} (h : Alike p v w) (hv : v.unrepeated = true)
    (hw : w.unrepeated = true) : Agree p v w := by
  induction h with
  | refl p v => exact Agree.refl p v
  | array hlength hitems ih =>
    refine agree_array (List.forall₂_iff_get.mpr ⟨hlength, fun i hi hj => ?_⟩)
    have hv' := Json.unrepeated_array.mp hv _ (List.get_mem _ ⟨i, hi⟩)
    have hw' := Json.unrepeated_array.mp hw _ (List.get_mem _ ⟨i, hj⟩)
    exact ih i _ _ (List.getElem?_eq_getElem hi) (List.getElem?_eq_getElem hj) hv' hw'
  | @object p ms ns hkeys hvalues ih =>
    have hagree (key : String) (q : Place) (v w : Json) (hq : p.member? ms key = some q)
        (hms : ms.lookup key = some v) (hns : ns.lookup key = some w) : Agree q v w :=
      ih key q v w hq hms hns (Json.unrepeated_of_lookup hv hms) (Json.unrepeated_of_lookup hw hns)
    have hms := (Json.unrepeated_object.mp hv).1
    have hns := (Json.unrepeated_object.mp hw).1
    cases p with
    | tree => exact agree_object_tree (ofPart_object_congr hms hns hkeys hagree)
    | trees => exact agree_object_trees
    | plain =>
      exact agree_object_plain hms hns (fun key => hkeys key .plain rfl) fun key v w hv hw =>
        hagree key .plain v w rfl hv hw

namespace Node

variable {v w : Json}

/-- **Alike documents are read as the same part of a tree.** -/
theorem ofPart_congr (h : Alike .tree v w) (hv : v.unrepeated = true) (hw : w.unrepeated = true)
    (n : Node) : ofPart v = .ok n ↔ ofPart w = .ok n :=
  (h.agree hv hw).ofPart n

/-- **Alike documents are read as the same tree.** -/
theorem ofJson_congr (h : Alike .tree v w) (hv : v.unrepeated = true) (hw : w.unrepeated = true)
    (n : Node) : ofJson v = .ok n ↔ ofJson w = .ok n := by
  have hpart := ofPart_congr h hv hw n
  cases h with
  | refl => exact Iff.rfl
  | array => exact iff_of_false nofun nofun
  | @object _ ms ns hkeys hvalues =>
    have htag {key : String} (hkey : key ∈ [kindField, ownTagField, underlyingTagField])
        (after : Option Tag) :
        Slot Tag.ofJson none (ms.lookup key) after ↔ Slot Tag.ofJson none (ns.lookup key) after := by
      have hplace : Place.tree.member? ms key = some .plain := if_pos hkey
      refine slot_congr (hkeys key _ hplace) fun x y hx hy => ?_
      have hxy := hvalues key _ x y hplace hx hy
      exact (hxy.agree (Json.unrepeated_of_lookup hv hx) (Json.unrepeated_of_lookup hw hy)).tag rfl
    rw [ofJson_eq_ok_iff (Json.unrepeated_object.mp hv).1,
      ofJson_eq_ok_iff (Json.unrepeated_object.mp hw).1, hpart]
    refine and_congr_left fun _ => exists_congr fun own => exists_congr fun underlying => ?_
    rw [htag (by decide), htag (by decide)]

end Node

/-! ## Values that are alike -/

/-- The order of members does not matter. -/
theorem Alike.of_perm {ms ns : List (String × Json)} (p : Place) (hperm : ms.Perm ns)
    (hkeys : (keys ms).Nodup) : Alike p (.object ms) (.object ns) := by
  have hns : (keys ns).Nodup := (hperm.map Prod.fst).nodup_iff.mp hkeys
  have hlookup (key : String) : ms.lookup key = ns.lookup key := by
    cases hms : ms.lookup key with
    | none =>
      refine (Json.lookup_eq_none_iff_keys.mpr fun hmem => ?_).symm
      exact Json.lookup_eq_none_iff_keys.mp hms ((hperm.map Prod.fst).mem_iff.mpr hmem)
    | some v => exact (Json.lookup_of_mem hns (hperm.mem_iff.mp (Json.mem_of_lookup hms))).symm
  refine .object (fun key _ _ => by rw [hlookup]) fun key q v w _ hv hw => ?_
  rw [hlookup, hw] at hv
  cases hv
  exact .refl q v

/-- A member that is ignored does not matter. -/
theorem Alike.of_ignored {ms : List (String × Json)} {p : Place} {key : String}
    (hkey : p.member? ms key = none) (v : Json) : Alike p (.object ms) (.object ((key, v) :: ms)) := by
  have hlookup (k : String) (q : Place) (hk : p.member? ms k = some q) :
      ((key, v) :: ms).lookup k = ms.lookup k := by
    refine Json.lookup_cons_of_ne ?_
    rintro rfl
    rw [hkey] at hk
    cases hk
  refine .object (fun k q hk => by rw [hlookup k q hk]) fun k q v w hk hv hw => ?_
  rw [hlookup k q hk, hv] at hw
  cases hw
  exact .refl q v

/-- Objects are alike as trees if they name the same kind and agree on the tags and on the fields of that
kind. -/
theorem Alike.of_fields {ms ns : List (String × Json)} {kind : Kind} (hkind : namedKind? ms = some kind)
    (hreserved : ∀ key ∈ [kindField, ownTagField, underlyingTagField],
      Option.Rel (Alike .plain) (ms.lookup key) (ns.lookup key))
    (hfields : ∀ f ∈ kind.fields, Option.Rel (Alike (.ofSort f.2)) (ms.lookup f.1) (ns.lookup f.1)) :
    Alike .tree (.object ms) (.object ns) := by
  have hrel (key : String) (q : Place) (hq : Place.tree.member? ms key = some q) :
      Option.Rel (Alike q) (ms.lookup key) (ns.lookup key) := by
    rw [Place.member?] at hq
    split at hq
    next h =>
      cases hq
      exact hreserved key h
    next =>
      rw [hkind, Option.bind_some] at hq
      obtain ⟨sort, hsort, rfl⟩ := Option.map_eq_some_iff.mp hq
      exact hfields (key, sort) (Json.mem_of_lookup hsort)
  refine .object (fun key q hq => ?_) fun key q v w hq hv hw => ?_
  · have hvw := hrel key q hq
    generalize ms.lookup key = v?, ns.lookup key = w? at hvw ⊢
    cases hvw <;> rfl
  · have hvw := hrel key q hq
    rw [hv, hw] at hvw
    cases hvw with
    | some h => exact h

/-- Sorting the members of all objects does not matter. -/
theorem alike_sorted (p : Place) {v : Json} (h : v.unrepeated = true) : Alike p v v.sorted := by
  induction v using Json.induction generalizing p with
  | array items ih =>
    rw [Json.sorted, Json.sortedItems_eq]
    refine .array (List.length_map _).symm fun i x y hx hy => ?_
    rw [List.getElem?_map, hx] at hy
    cases hy
    have hmem : x ∈ items := List.mem_of_getElem? hx
    exact ih x hmem p.item (Json.unrepeated_array.mp h x hmem)
  | object members ih =>
    obtain ⟨hkeys, hvalues⟩ := Json.unrepeated_object.mp h
    rw [Json.sorted]
    refine .object (fun key _ _ => ?_) fun key q x y _ hx hy => ?_
    · rw [Json.lookup_sortedMembers hkeys, Option.isSome_map]
    · rw [Json.lookup_sortedMembers hkeys, hx] at hy
      cases hy
      have hmem := Json.mem_of_lookup hx
      exact ih (key, x) hmem q (hvalues (key, x) hmem)
  | leaf v hv =>
    rw [Json.sorted_of_isLeaf hv]
    exact .refl p v

/-- **Sorting does not change the tree.** -/
theorem Node.ofJson_sorted {v : Json} (h : v.unrepeated = true) (n : Node) :
    ofJson v.sorted = .ok n ↔ ofJson v = .ok n :=
  (ofJson_congr (alike_sorted .tree h) h (Json.unrepeated_sorted h) n).symm

end RepairCorpus
