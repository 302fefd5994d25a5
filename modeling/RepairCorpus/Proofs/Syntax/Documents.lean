import RepairCorpus.Proofs.Json.Members
import RepairCorpus.Proofs.Results
import RepairCorpus.Syntax.Decode

/-!
# What a document says

Reading a tree goes through the members of each object one after the other, several times, and stops
at the first error.  When it succeeds, though, the outcome depends only on what stands under which
key.  This module says so: with no key given twice, each scan of the members is described by lookups.

A scan carries what it has read before, and a member that is met must be new.  `Slot` says this for
one key: `Slot read before member after` holds if reading the member, if there is one, leads from
`before` to `after`.

* `FoundTags.readWith_eq_ok_iff`, `Kind.readFrom_eq_ok_iff`, `FoundRegex.read_eq_ok_iff`: the scans
  for tags, kinds and the parts of regular expressions.
* `Node.readFields_eq_ok_iff`: the scan for fields, with `Field.ofJson` for the reader of a field.
* `Node.ofPart_eq_ok_iff`, `Node.ofJson_eq_ok_iff`: **what it takes to read a tree**.
-/

namespace RepairCorpus

open Json (keys lookup_cons_of_ne lookup_eq_none_iff_keys)

/-! ## One key -/

/-- Reading the member of a key, if there is one, leads from `before` to `after`.  What has been read
already must not be met again. -/
def Slot {α : Type} (read : Json → Except Error α) (before : Option α) :
    Option Json → Option α → Prop
  | none, after => after = before
  | some v, after => before = none ∧ ∃ x, read v = .ok x ∧ after = some x

section Slot

variable {α : Type} {read : Json → Except Error α} {before after : Option α} {v : Json}

theorem slot_none : Slot read before none after ↔ after = before := Iff.rfl

theorem slot_none_some :
    Slot read none (some v) after ↔ ∃ x, read v = .ok x ∧ after = some x := and_iff_right rfl

/-- The first member of a key has to be new, and is read before the others. -/
theorem slot_cons_self {key : String} {ms : List (String × Json)} (hfirst : key ∉ keys ms) :
    Slot read before (((key, v) :: ms).lookup key) after ↔
      before = none ∧ ∃ x, read v = .ok x ∧ Slot read (some x) (ms.lookup key) after := by
  rw [List.lookup_cons_self, lookup_eq_none_iff_keys.mpr hfirst]
  exact Iff.rfl

theorem slot_cons_of_ne {key key' : String} {ms : List (String × Json)} (hne : key ≠ key') :
    Slot read before (((key', v) :: ms).lookup key) after ↔ Slot read before (ms.lookup key) after := by
  rw [lookup_cons_of_ne hne]

/-- Members that are read alike, if there are any, make no difference. -/
theorem slot_congr {read' : Json → Except Error α} {v? w? : Option Json}
    (hgiven : v?.isSome = w?.isSome)
    (h : ∀ v w, v? = some v → w? = some w → ∀ x, read v = .ok x ↔ read' w = .ok x) :
    Slot read before v? after ↔ Slot read' before w? after := by
  cases v? with
  | none =>
    cases w? with
    | none => exact Iff.rfl
    | some w => cases hgiven
  | some v =>
    cases w? with
    | none => cases hgiven
    | some w =>
      refine and_congr_right fun _ => exists_congr fun x => and_congr_left fun _ => ?_
      exact h v w rfl rfl x

end Slot

theorem throw_ne_ok {α : Type} {e : Error} {x : α} : (throw e : Except Error α) ≠ .ok x := nofun

/-! ## Tags -/

/-- **The tags of a node** are what stands under their two keys. -/
theorem FoundTags.readWith_eq_ok_iff {tag : Json → Except Error Tag} {found tags : FoundTags}
    {ms : List (String × Json)} (hkeys : (keys ms).Nodup) :
    readWith tag found ms = .ok tags ↔
      Slot tag found.own (ms.lookup ownTagField) tags.own ∧
        Slot tag found.underlying (ms.lookup underlyingTagField) tags.underlying := by
  obtain ⟨own', underlying'⟩ := tags
  induction ms generalizing found with
  | nil =>
    obtain ⟨own, underlying⟩ := found
    rw [readWith, List.lookup_nil, List.lookup_nil, slot_none, slot_none, Except.ok.injEq, mk.injEq]
    exact and_congr eq_comm eq_comm
  | cons m ms ih =>
    obtain ⟨key, v⟩ := m
    obtain ⟨hfirst, hrest⟩ := List.nodup_cons.mp hkeys
    rw [readWith]
    by_cases hown : key = ownTagField
    · subst hown
      rw [if_pos rfl, slot_cons_self hfirst, slot_cons_of_ne (by decide)]
      cases hbefore : found.own with
      | some t => exact iff_of_false throw_ne_ok fun h => absurd h.1.1 (Option.some_ne_none t)
      | none =>
        refine Except.bind_eq_ok_iff.trans ?_
        rw [and_iff_right rfl, ← exists_and_right]
        refine exists_congr fun t => ?_
        rw [ih hrest, and_assoc]
    · rw [if_neg hown, slot_cons_of_ne (Ne.symm hown)]
      by_cases hunderlying : key = underlyingTagField
      · subst hunderlying
        rw [if_pos rfl, slot_cons_self hfirst]
        cases hbefore : found.underlying with
        | some t => exact iff_of_false throw_ne_ok fun h => absurd h.2.1 (Option.some_ne_none t)
        | none =>
          refine Except.bind_eq_ok_iff.trans ?_
          rw [and_iff_right rfl, ← exists_and_left]
          refine exists_congr fun t => ?_
          rw [ih hrest, and_left_comm]
      · rw [if_neg hunderlying, slot_cons_of_ne (Ne.symm hunderlying), ih hrest]

/-! ## Kinds -/

/-- **The kind of a node** is what stands under its key. -/
theorem Kind.readFrom_eq_ok_iff {found : Option Kind} {k : Kind} {ms : List (String × Json)}
    (hkeys : (keys ms).Nodup) :
    readFrom found ms = .ok k ↔ Slot Kind.ofJson found (ms.lookup kindField) (some k) := by
  induction ms generalizing found with
  | nil =>
    rw [List.lookup_nil, slot_none]
    cases found with
    | none => exact iff_of_false nofun nofun
    | some k' =>
      show Except.ok k' = Except.ok k ↔ some k = some k'
      rw [Except.ok.injEq, Option.some.injEq, eq_comm]
  | cons m ms ih =>
    obtain ⟨key, v⟩ := m
    obtain ⟨hfirst, hrest⟩ := List.nodup_cons.mp hkeys
    rw [readFrom]
    by_cases hkey : key = kindField
    · subst hkey
      rw [if_pos rfl, slot_cons_self hfirst]
      cases found with
      | some k' => exact iff_of_false throw_ne_ok fun h => absurd h.1 (Option.some_ne_none k')
      | none =>
        rw [and_iff_right rfl]
        refine Except.bind_eq_ok_iff.trans (exists_congr fun k' => and_congr_right fun _ => ?_)
        exact ih hrest
    · rw [if_neg hkey, slot_cons_of_ne (Ne.symm hkey), ih hrest]

/-! ## Regular expressions -/

/-- **The parts of a regular expression** are what stands under their two keys. -/
theorem FoundRegex.read_eq_ok_iff {found : FoundRegex} {r : Regex} {ms : List (String × Json)}
    (hkeys : (keys ms).Nodup) :
    found.read ms = .ok r ↔ ∃ pattern flags,
      Slot readOptionalText found.pattern (ms.lookup "pattern") pattern ∧
        Slot readOptionalText found.flags (ms.lookup "flags") flags ∧
        r = ⟨pattern.join, flags.join⟩ := by
  induction ms generalizing found with
  | nil =>
    rw [read, List.lookup_nil, List.lookup_nil, Except.ok.injEq, eq_comm]
    simp only [slot_none, exists_eq_left, exists_and_left]
  | cons m ms ih =>
    obtain ⟨key, v⟩ := m
    obtain ⟨hfirst, hrest⟩ := List.nodup_cons.mp hkeys
    rw [read]
    by_cases hpattern : key = "pattern"
    · subst hpattern
      simp only [if_true, slot_cons_self hfirst, slot_cons_of_ne (show "flags" ≠ "pattern" by decide)]
      cases hbefore : found.pattern with
      | some t => exact iff_of_false throw_ne_ok fun ⟨_, _, h, _⟩ => absurd h.1 (Option.some_ne_none t)
      | none =>
        refine Except.bind_eq_ok_iff.trans ?_
        simp only [ih hrest]
        constructor
        · rintro ⟨t, ht, pattern, flags, hpat, hflags, rfl⟩
          exact ⟨pattern, flags, ⟨trivial, t, ht, hpat⟩, hflags, rfl⟩
        · rintro ⟨pattern, flags, ⟨-, t, ht, hpat⟩, hflags, rfl⟩
          exact ⟨t, ht, pattern, flags, hpat, hflags, rfl⟩
    · simp only [if_neg hpattern, slot_cons_of_ne (Ne.symm hpattern)]
      by_cases hflags : key = "flags"
      · subst hflags
        simp only [if_true, slot_cons_self hfirst]
        cases hbefore : found.flags with
        | some t =>
          exact iff_of_false throw_ne_ok fun ⟨_, _, _, h, _⟩ => absurd h.1 (Option.some_ne_none t)
        | none =>
          refine Except.bind_eq_ok_iff.trans ?_
          simp only [ih hrest]
          constructor
          · rintro ⟨t, ht, pattern, flags, hpat, hflags, rfl⟩
            exact ⟨pattern, flags, hpat, ⟨trivial, t, ht, hflags⟩, rfl⟩
          · rintro ⟨pattern, flags, hpat, ⟨-, t, ht, hflags⟩, rfl⟩
            exact ⟨t, ht, pattern, flags, hpat, hflags, rfl⟩
      · simp only [if_neg hflags, slot_cons_of_ne (Ne.symm hflags), ih hrest]

/-- A literal's value that is no leaf is a regular expression. -/
theorem LiteralValue.ofJson_eq_ok_iff_of_not_isLeaf {v : Json} (hv : v.isLeaf = false)
    {x : LiteralValue} :
    LiteralValue.ofJson v = .ok x ↔ ∃ r, Regex.ofJson v = .ok r ∧ .regex r = x := by
  unfold LiteralValue.ofJson
  split
  case h_5 =>
    split
    next r hr =>
      rw [hr]
      simp only [Except.ok.injEq, exists_eq_left']
    next e hr =>
      rw [hr]
      exact iff_of_false nofun nofun
  all_goals cases hv

/-! ## Fields -/

/-- Reads a part that may be absent. -/
def Node.ofOptionalPart (v : Json) : Except Error (Option Node) :=
  if v.isNull then pure none else some <$> Node.ofPart v

theorem Node.ofOptionalPart_eq_map {v : Json} (h : v.isNull = false) :
    ofOptionalPart v = (ofPart v).map some := by
  rw [ofOptionalPart, if_neg (by rw [h]; exact Bool.false_ne_true)]
  rfl

/-- Reads the content of a field of some sort. -/
def Field.ofJson : FieldSort → Json → Except Error (Field Node)
  | .node, v => Field.node <$> Node.ofPart v
  | .optionalNode, v => Field.optionalNode <$> Node.ofOptionalPart v
  | .nodes, .array items => Field.nodes <$> Node.readList items
  | .nodes, _ => throw unreadable
  | .holes, .array items => Field.holes <$> Node.readHoles items
  | .holes, _ => throw unreadable
  | .text, v => Field.text <$> readText v
  | .flag, v => Field.flag <$> readFlag v
  | .value, v => Field.value <$> LiteralValue.ofJson v
  | .regex, v => Field.regex <$> Regex.ofOptionalJson v

/-- What is found for a key when the fields of a kind are read: the content of the field, if the kind
has a field of this name and it is given. -/
def FoundField (kind : Kind) (key : String) (given : Option Json) (found : Option (Field Node)) :
    Prop :=
  match kind.fieldSort? key with
  | none => found = none
  | some sort => Slot (Field.ofJson sort) none given found

theorem foundField_none {kind : Kind} {key : String} {found : Option (Field Node)} :
    FoundField kind key none found ↔ found = none := by
  rw [FoundField]
  split <;> exact Iff.rfl

/-- What stands under a key that is a field is found, and apart from it what the other members say. -/
theorem foundField_cons_iff {kind : Kind} {key : String} {sort : FieldSort} {v : Json}
    {ms : List (String × Json)} {r : String → Option (Field Node)} (hsort : kind.fieldSort? key = some sort)
    (hfirst : key ∉ keys ms) :
    (∀ key', FoundField kind key' (((key, v) :: ms).lookup key') (r key')) ↔
      ∃ field, Field.ofJson sort v = .ok field ∧ r key = some field ∧
        ∀ key', FoundField kind key' (ms.lookup key') (if key' = key then none else r key') := by
  have hother {key'} (hne : key' ≠ key) : FoundField kind key' (((key, v) :: ms).lookup key') (r key') ↔
      FoundField kind key' (ms.lookup key') (if key' = key then none else r key') := by
    rw [lookup_cons_of_ne hne, if_neg hne]
  have hself : FoundField kind key (((key, v) :: ms).lookup key) (r key) ↔
      ∃ field, Field.ofJson sort v = .ok field ∧ r key = some field := by
    rw [List.lookup_cons_self, FoundField, hsort]
    exact slot_none_some
  constructor
  · intro h
    obtain ⟨field, hfield, hr⟩ := hself.mp (h key)
    refine ⟨field, hfield, hr, fun key' => ?_⟩
    by_cases hkey : key' = key
    · subst hkey
      rw [lookup_eq_none_iff_keys.mpr hfirst, if_pos rfl]
      exact foundField_none.mpr rfl
    · exact (hother hkey).mp (h key')
  · rintro ⟨field, hfield, hr, hrest⟩ key'
    by_cases hkey : key' = key
    · subst hkey
      exact hself.mpr ⟨field, hfield, hr⟩
    · exact (hother hkey).mpr (hrest key')

namespace Node

theorem readFields_cons_none {kind : Kind} {seen : List String} {key : String} {v : Json}
    {members : List (String × Json)} (h : kind.fieldSort? key = none) :
    readFields kind seen ((key, v) :: members) = readFields kind seen members := by
  rw [readFields, h]

theorem readFields_cons_some {kind : Kind} {seen : List String} {key : String} {v : Json}
    {members : List (String × Json)} {sort : FieldSort} (h : kind.fieldSort? key = some sort)
    (hnew : key ∉ seen) :
    readFields kind seen ((key, v) :: members) =
      (Field.ofJson sort v).bind fun field =>
        (readFields kind (key :: seen) members).bind fun fields => .ok ((key, field) :: fields) := by
  rw [readFields, h]
  dsimp only
  rw [if_neg hnew]
  cases sort with
  | optionalNode =>
    dsimp only
    rw [Field.ofJson, ofOptionalPart]
    by_cases hnull : v.isNull = true
    · rw [if_pos hnull, if_pos hnull]
      rfl
    · rw [if_neg hnull, if_neg hnull]
      cases ofPart v <;> rfl
  | nodes => cases v <;> rfl
  | holes => cases v <;> rfl
  | _ => rfl

/-- **The fields of a kind** are what stands under their keys; `seen` are the keys of members that came
before. -/
theorem readFields_eq_ok_iff {kind : Kind} {seen : List String} {ms : List (String × Json)}
    {r : String → Option (Field Node)} (hkeys : (keys ms).Nodup) (hseen : ∀ key ∈ keys ms, key ∉ seen) :
    (∃ fields, readFields kind seen ms = .ok fields ∧ ∀ key, fields.lookup key = r key) ↔
      ∀ key, FoundField kind key (ms.lookup key) (r key) := by
  induction ms generalizing seen r with
  | nil =>
    rw [readFields]
    constructor
    · rintro ⟨fields, hfields, hr⟩ key
      cases hfields
      exact foundField_none.mpr (hr key).symm
    · intro h
      exact ⟨[], rfl, fun key => (foundField_none.mp (h key)).symm⟩
  | cons m ms ih =>
    obtain ⟨name, v⟩ := m
    obtain ⟨hfirst, hrest⟩ := List.nodup_cons.mp hkeys
    cases hsort : kind.fieldSort? name with
    | none =>
      rw [readFields_cons_none hsort,
        ih hrest fun key hkey => hseen key (List.mem_cons_of_mem _ hkey)]
      refine forall_congr' fun key => ?_
      by_cases hkey : key = name
      · subst hkey
        rw [FoundField, FoundField, hsort]
      · rw [lookup_cons_of_ne hkey]
    | some sort =>
      rw [readFields_cons_some hsort (hseen name List.mem_cons_self), foundField_cons_iff hsort hfirst]
      have hseen' : ∀ key ∈ keys ms, key ∉ name :: seen := fun key hkey =>
        List.disjoint_cons_right.mpr ⟨hfirst, (List.disjoint_cons_left.mp hseen).2⟩ hkey
      constructor
      · rintro ⟨fields, hfields, hr⟩
        obtain ⟨field, hfield, hfields⟩ := Except.bind_eq_ok_iff.mp hfields
        obtain ⟨others, hothers, heq⟩ := Except.bind_eq_ok_iff.mp hfields
        cases heq
        have hfound := (ih hrest hseen').mp ⟨others, hothers, fun _ => rfl⟩
        refine ⟨field, hfield, ?_, fun key => ?_⟩
        · rw [← hr, List.lookup_cons_self]
        · by_cases hkey : key = name
          · subst hkey
            rw [if_pos rfl, lookup_eq_none_iff_keys.mpr hfirst]
            exact foundField_none.mpr rfl
          · rw [if_neg hkey, ← hr key, lookup_cons_of_ne hkey]
            exact hfound key
      · rintro ⟨field, hfield, hr, hfound⟩
        obtain ⟨others, hothers, hlookup⟩ := (ih hrest hseen').mpr hfound
        refine ⟨(name, field) :: others, ?_, fun key => ?_⟩
        · rw [hfield, hothers]
          rfl
        · by_cases hkey : key = name
          · subst hkey
            rw [List.lookup_cons_self, hr]
          · rw [lookup_cons_of_ne hkey, hlookup, if_neg hkey]

theorem readList_eq_mapM (vs : List Json) : readList vs = vs.mapM ofPart := by
  induction vs with
  | nil => rfl
  | cons v vs ih =>
    rw [readList, List.mapM_cons, ih]

/-- **Reading a list** of trees is reading each. -/
theorem readList_eq_ok_iff {vs : List Json} {ns : List Node} :
    readList vs = .ok ns ↔ List.Forall₂ (fun v n => ofPart v = .ok n) vs ns := by
  rw [readList_eq_mapM, Except.mapM_eq_ok_iff]

theorem readHoles_cons (v : Json) (vs : List Json) :
    readHoles (v :: vs) =
      (ofOptionalPart v).bind fun n => (readHoles vs).bind fun rest => .ok (n :: rest) := by
  rw [readHoles, ofOptionalPart]
  by_cases hnull : v.isNull = true
  · rw [if_pos hnull, if_pos hnull]
    rfl
  · rw [if_neg hnull, if_neg hnull]
    rfl

theorem readHoles_eq_mapM (vs : List Json) : readHoles vs = vs.mapM ofOptionalPart := by
  induction vs with
  | nil => rfl
  | cons v vs ih =>
    rw [readHoles_cons, List.mapM_cons, ih]
    rfl

/-- **Reading a list with holes** is reading each item. -/
theorem readHoles_eq_ok_iff {vs : List Json} {os : List (Option Node)} :
    readHoles vs = .ok os ↔ List.Forall₂ (fun v o => ofOptionalPart v = .ok o) vs os := by
  rw [readHoles_eq_mapM, Except.mapM_eq_ok_iff]

end Node

/-! ## Nodes -/

/-- A form is made of what is found under the names of its fields. -/
theorem Form.ofFields_congr {α : Type} {kind : Kind} {fields fields' : List (String × Field α)}
    (h : ∀ key, fields.lookup key = fields'.lookup key) :
    Form.ofFields kind fields = Form.ofFields kind fields' := by
  cases kind <;>
    simp only [Form.ofFields, Form.readNode, Form.readOptional, Form.readNodes, Form.readNodesOrNone,
      Form.readHoles, Form.readText, Form.readTextOr, Form.readFlagOr, Form.readValue, Form.readRegex,
      h]

namespace Node

variable {ms : List (String × Json)} {n : Node}

theorem assemble_congr {tags : FoundTags} {kind : Kind} {fields fields' : List (String × Field Node)}
    (h : ∀ key, fields.lookup key = fields'.lookup key) :
    assemble tags kind fields = assemble tags kind fields' := by
  rw [assemble, assemble, Form.ofFields_congr h]

/-- Once the tags and the kind are found under their keys, the fields of that kind are read. -/
theorem ofPart_eq_bind {tags : FoundTags} {kind : Kind} (hkeys : (keys ms).Nodup)
    (hown : Slot Tag.ofPart none (ms.lookup ownTagField) tags.own)
    (hunderlying : Slot Tag.ofPart none (ms.lookup underlyingTagField) tags.underlying)
    (hkind : Slot Kind.ofJson none (ms.lookup kindField) (some kind)) :
    ofPart (.object ms) = (readFields kind [] ms).bind (assemble tags kind) := by
  have htags : FoundTags.readPart ms = .ok tags :=
    (FoundTags.readWith_eq_ok_iff hkeys).mpr ⟨hown, hunderlying⟩
  rw [ofPart, htags, (Kind.readFrom_eq_ok_iff hkeys).mpr hkind]
  rfl

/-- When the tags, the kind and the fields of that kind are found under their keys, reading a tree is putting
them together. -/
theorem ofPart_eq_assemble {tags : FoundTags} {kind : Kind} {fields : List (String × Field Node)}
    (hkeys : (keys ms).Nodup) (hown : Slot Tag.ofPart none (ms.lookup ownTagField) tags.own)
    (hunderlying : Slot Tag.ofPart none (ms.lookup underlyingTagField) tags.underlying)
    (hkind : Slot Kind.ofJson none (ms.lookup kindField) (some kind))
    (hfound : ∀ key, FoundField kind key (ms.lookup key) (fields.lookup key)) :
    ofPart (.object ms) = assemble tags kind fields := by
  obtain ⟨fields', hread, hlookup⟩ :=
    (readFields_eq_ok_iff (r := fun key => fields.lookup key) hkeys fun _ _ => List.not_mem_nil).mpr hfound
  rw [ofPart_eq_bind hkeys hown hunderlying hkind, hread, ← assemble_congr hlookup]
  rfl

/-- **What it takes to read a tree**: the tags, the kind and the fields of that kind are found under
their keys, and together they make the node. -/
theorem ofPart_eq_ok_iff (hkeys : (keys ms).Nodup) :
    ofPart (.object ms) = .ok n ↔ ∃ tags kind fields,
      Slot Tag.ofPart none (ms.lookup ownTagField) tags.own ∧
        Slot Tag.ofPart none (ms.lookup underlyingTagField) tags.underlying ∧
        Slot Kind.ofJson none (ms.lookup kindField) (some kind) ∧
        (∀ key, FoundField kind key (ms.lookup key) (fields.lookup key)) ∧
        assemble tags kind fields = .ok n := by
  constructor
  · intro h
    rw [ofPart] at h
    obtain ⟨tags, htags, h⟩ := Except.bind_eq_ok_iff.mp h
    obtain ⟨kind, hkind, h⟩ := Except.bind_eq_ok_iff.mp h
    obtain ⟨fields, hread, hn⟩ := Except.bind_eq_ok_iff.mp h
    obtain ⟨hown, hunderlying⟩ := (FoundTags.readWith_eq_ok_iff hkeys).mp htags
    have hfound : ∀ key, FoundField kind key (ms.lookup key) (fields.lookup key) :=
      (readFields_eq_ok_iff hkeys fun _ _ => List.not_mem_nil).mp ⟨fields, hread, fun _ => rfl⟩
    exact ⟨tags, kind, fields, hown, hunderlying, (Kind.readFrom_eq_ok_iff hkeys).mp hkind, hfound, hn⟩
  · rintro ⟨tags, kind, fields, hown, hunderlying, hkind, hfound, hn⟩
    rw [ofPart_eq_assemble hkeys hown hunderlying hkind hfound, hn]

/-- The outermost node is read like any other, once its tags have been read strictly. -/
theorem ofJson_eq_ok_iff (hkeys : (keys ms).Nodup) :
    ofJson (.object ms) = .ok n ↔
      (∃ own underlying, Slot Tag.ofJson none (ms.lookup ownTagField) own ∧
        Slot Tag.ofJson none (ms.lookup underlyingTagField) underlying) ∧
      ofPart (.object ms) = .ok n := by
  rw [ofJson]
  refine Except.bind_eq_ok_iff.trans ?_
  rw [exists_and_right]
  refine and_congr_left fun _ => ?_
  constructor
  · rintro ⟨tags, htags⟩
    exact ⟨tags.own, tags.underlying, (FoundTags.readWith_eq_ok_iff hkeys).mp htags⟩
  · rintro ⟨own, underlying, htags⟩
    exact ⟨⟨own, underlying⟩, (FoundTags.readWith_eq_ok_iff hkeys).mpr htags⟩

end Node

end RepairCorpus
