import RepairCorpus.Proofs.Json.Pointers
import RepairCorpus.Proofs.Syntax.FieldDefaults
import RepairCorpus.Proofs.Syntax.KeyOrder

/-!
# One member changed

An object is read as a node, and then one of its members is changed or taken away.  What comes of it is
decided by that member alone: its key is the key of a field, of the kind, of a tag, or none that is asked
for.

* `Node.Says`: what an object says of a node: its tags, its kind and its fields.
* `Node.ofPart_of_puts`: **a field has the content that is given now**, or its default, and nothing else
  changes.
* `Node.ofPart_of_puts_unreadable`: what is wrong with the new content is the error.
* `Node.ofPart_of_puts_missing`, `Node.ofPart_of_puts_kind`: **a field without a default and the kind cannot
  be left out.**
* `Node.ofPart_of_puts_own`, `Node.ofPart_of_puts_underlying`: the tags can.
* `Node.ofJson_of_puts`: the strict reading of the outermost tags makes no difference to this.
-/

namespace RepairCorpus

open Json (keys putMember Puts rewriteMember)

variable {α : Type}

/-! ## The contents of fields -/

theorem Field.sort_of_ofJson {sort : FieldSort} {v : Json} {c : Field Node}
    (h : Field.ofJson sort v = .ok c) : c.sort = sort := by
  have hmap {β : Type} {x : Except Error β} {f : β → Field Node} (hx : x.map f = .ok c)
      (hf : ∀ y, (f y).sort = sort) : c.sort = sort := by
    obtain ⟨y, -, rfl⟩ := Except.map_eq_ok_iff.mp hx
    exact hf y
  cases sort with
  | nodes =>
    cases v with
    | array items => exact hmap h fun _ => rfl
    | _ => cases h
  | holes =>
    cases v with
    | array items => exact hmap h fun _ => rfl
    | _ => cases h
  | _ => exact hmap h fun _ => rfl

namespace Form

variable {form : Form α} {key : String} {c d : Field α}

theorem fieldSort?_of_mem {f : String × Field α} (hf : f ∈ form.toFields) :
    form.kind.fieldSort? f.1 = some f.2.sort := by
  rw [fieldSort?_kind, Json.lookup_of_mem form.nodup_toFields (v := f.2) hf, Option.map_some]

/-- **Any field of a form can be given another content.** -/
theorem exists_putMember (hsort : form.kind.fieldSort? key = some c.sort) :
    ∃ form' : Form α, form'.kind = form.kind ∧ form'.toFields = putMember key c form.toFields := by
  -- what is written for a name has the sort of the field
  have hgiven (name : String) (sort : FieldSort) (hname : form.kind.fieldSort? name = some sort) :
      ∃ d, (putMember key c form.toFields).lookup name = some d ∧ d.sort = sort := by
    rw [fieldSort?_kind] at hname hsort
    obtain ⟨d, hd, rfl⟩ := Option.map_eq_some_iff.mp hname
    by_cases heq : name = key
    · subst heq
      obtain ⟨d', hd', hsort'⟩ := Option.map_eq_some_iff.mp hsort
      cases hd.symm.trans hd'
      exact ⟨c, Json.lookup_putMember_self hd, hsort'.symm⟩
    · exact ⟨d, (Json.lookup_putMember_of_ne heq).trans hd, rfl⟩
  have hcontent {name : String} {d : Field α} (hd : (putMember key c form.toFields).lookup name = some d) :
      form.kind.content? (putMember key c form.toFields) (name, d.sort) = some d := by
    rw [Kind.content?, hd, Option.filter_some, if_pos (decide_eq_true rfl), Option.some_or]
  obtain ⟨form', hform'⟩ : ∃ form', ofFields form.kind (putMember key c form.toFields) = .ok form' := by
    refine exists_ofFields fun f hf => ?_
    obtain ⟨d, hd, hsort'⟩ := hgiven f.1 f.2 (Json.lookup_of_mem form.kind.nodup_fields hf)
    have h := hcontent hd
    rw [hsort'] at h
    exact Option.isSome_iff_exists.mpr ⟨d, h⟩
  obtain ⟨hkind, hcontents⟩ := ofFields_eq_ok_iff.mp hform'
  refine ⟨form', hkind, Json.eq_of_lookup ?_ form'.nodup_toFields fun name hname => ?_⟩
  · rw [Json.keys_putMember, keys_toFields, keys_toFields, hkind]
  · obtain ⟨f, hf⟩ := Option.isSome_iff_exists.mp (Json.isSome_lookup_iff_keys.mpr hname)
    have hmem : (name, f) ∈ form'.toFields := Json.mem_of_lookup hf
    have hsort' := fieldSort?_of_mem hmem
    rw [hkind] at hsort'
    obtain ⟨d, hd, hds⟩ := hgiven name f.sort hsort'
    have h := hcontent hd
    rw [hds, hcontents _ hmem] at h
    rw [hf, hd, h]

end Form

/-! ## Fields of a node -/

namespace FoundField

variable {kind : Kind} {key : String} {sort : FieldSort}

theorem iff_slot (hsort : kind.fieldSort? key = some sort) {v? : Option Json} {c? : Option (Field Node)} :
    FoundField kind key v? c? ↔ Slot (Field.ofJson sort) none v? c? := by
  rw [FoundField, hsort]

theorem iff_none (hsort : kind.fieldSort? key = none) {v? : Option Json} {c? : Option (Field Node)} :
    FoundField kind key v? c? ↔ c? = none := by
  rw [FoundField, hsort]

end FoundField

namespace Node

variable {ms ms' : List (String × Json)} {n : Node} {key : String} {sort : FieldSort}
  {v? : Option Json} {c? : Option (Field Node)} {c : Field Node} {form : Form Node} {e : Error}

theorem assemble_eq_ok_iff {tags : FoundTags} {kind : Kind} {fields : List (String × Field Node)} :
    assemble tags kind fields = .ok n ↔ Form.ofFields kind fields = .ok n.form ∧
      n.own = tags.own.getD .unknown ∧ n.underlying = tags.underlying.getD .unknown := by
  obtain ⟨own, underlying, form⟩ := n
  rw [assemble]
  split
  next form' hform =>
    rw [hform, Except.ok.injEq, Except.ok.injEq, mk.injEq]
    constructor
    · rintro ⟨rfl, rfl, rfl⟩
      exact ⟨rfl, rfl, rfl⟩
    · rintro ⟨rfl, rfl, rfl⟩
      exact ⟨rfl, rfl, rfl⟩
  next name hform =>
    rw [hform]
    constructor
    · intro h
      cases h
    · rintro ⟨h, -⟩
      cases h

/-- `Says ms tags fields n` holds if the members say `tags` and `fields`, and that makes `n`. -/
structure Says (ms : List (String × Json)) (tags : FoundTags) (fields : List (String × Field Node))
    (n : Node) : Prop where
  nodup : (keys ms).Nodup
  own : Slot Tag.ofPart none (ms.lookup ownTagField) tags.own
  underlying : Slot Tag.ofPart none (ms.lookup underlyingTagField) tags.underlying
  kind : Slot Kind.ofJson none (ms.lookup kindField) (some n.kind)
  found : ∀ key, FoundField n.kind key (ms.lookup key) (fields.lookup key)
  form : Form.ofFields n.kind fields = .ok n.form
  own_eq : n.own = tags.own.getD .unknown
  underlying_eq : n.underlying = tags.underlying.getD .unknown

theorem exists_says (hkeys : (keys ms).Nodup) (hn : ofPart (.object ms) = .ok n) :
    ∃ tags fields, Says ms tags fields n := by
  obtain ⟨tags, kind, fields, hown, hunderlying, hkind, hfound, hassemble⟩ :=
    (ofPart_eq_ok_iff hkeys).mp hn
  obtain ⟨hform, howneq, hunderlyingeq⟩ := assemble_eq_ok_iff.mp hassemble
  obtain rfl : n.kind = kind := (Form.ofFields_eq_ok_iff.mp hform).1
  exact ⟨tags, fields, hkeys, hown, hunderlying, hkind, hfound, hform, howneq, hunderlyingeq⟩

namespace Says

variable {tags : FoundTags} {fields : List (String × Field Node)}

theorem ofPart (h : Says ms tags fields n) : Node.ofPart (.object ms) = .ok n := by
  rw [ofPart_eq_assemble h.nodup h.own h.underlying h.kind h.found]
  exact assemble_eq_ok_iff.mpr ⟨h.form, h.own_eq, h.underlying_eq⟩

/-- **A field of a node** is what is given for it. -/
theorem exists_field (h : Says ms tags fields n) (hsort : n.kind.fieldSort? key = some sort) {v : Json}
    (hv : ms.lookup key = some v) :
    ∃ c, Field.ofJson sort v = .ok c ∧ n.form.toFields.lookup key = some c := by
  have hfound := (FoundField.iff_slot hsort).mp (h.found key)
  rw [hv] at hfound
  obtain ⟨c, hc, hlookup⟩ := slot_none_some.mp hfound
  have hd := n.form.fieldSort?_kind key
  rw [show n.form.kind.fieldSort? key = some sort from hsort] at hd
  obtain ⟨d, hd, hds⟩ := Option.map_eq_some_iff.mp hd.symm
  have hcontent := (Form.ofFields_eq_ok_iff.mp h.form).2 (key, d) (Json.mem_of_lookup hd)
  rw [Kind.content?, hlookup, Option.filter_some, if_pos, Option.some_or] at hcontent
  · cases hcontent
    exact ⟨d, hc, hd⟩
  · exact decide_eq_true ((Field.sort_of_ofJson hc).trans hds.symm)

/-- What is found when the member of a field is changed. -/
theorem found_of_puts (h : Says ms tags fields n) (hsort : n.kind.fieldSort? key = some sort)
    (hputs : Puts key v? ms ms') (hslot : Slot (Field.ofJson sort) none v? c?) (k : String) :
    FoundField n.kind k (ms'.lookup k) ((rewriteMember key c? fields).lookup k) := by
  rw [Json.lookup_rewriteMember, hputs.lookup]
  split
  next hk =>
    subst hk
    exact (FoundField.iff_slot hsort).mpr hslot
  next => exact h.found k

/-- **A part of a node** is a part of what is given for a field. -/
theorem exists_given (h : Says ms tags fields n) {x : Node} (hx : x ∈ n.children) :
    ∃ name sort v c, n.kind.fieldSort? name = some sort ∧ ms.lookup name = some v ∧
      Field.ofJson sort v = .ok c ∧ x ∈ c.parts := by
  have hparts : x ∈ n.form.toFields.flatMap fun f => f.2.parts := by
    rw [← Form.children_eq_parts]
    exact hx
  obtain ⟨⟨name, c⟩, hmem, hc⟩ := List.mem_flatMap.mp hparts
  have hsort : n.kind.fieldSort? name = some c.sort := Form.fieldSort?_of_mem hmem
  cases hv : ms.lookup name with
  | some v =>
    obtain ⟨c', hread, hlookup⟩ := h.exists_field hsort hv
    cases hlookup.symm.trans (Json.lookup_of_mem n.form.nodup_toFields hmem)
    exact ⟨name, c.sort, v, c, hsort, hv, hread, hc⟩
  | none =>
    have hfound := (FoundField.iff_slot hsort).mp (h.found name)
    rw [hv] at hfound
    have hcontent := (Form.ofFields_eq_ok_iff.mp h.form).2 _ hmem
    rw [Kind.content?, slot_none.mp hfound, Option.filter_none, Option.none_or] at hcontent
    -- a default has no parts
    rw [Kind.parts_of_default? hcontent] at hc
    cases hc

/-- The tags and the kind stay when the member of a field is changed. -/
theorem reserved_of_puts (h : Says ms tags fields n) (hsort : n.kind.fieldSort? key = some sort)
    (hputs : Puts key v? ms ms') :
    Slot Tag.ofPart none (ms'.lookup ownTagField) tags.own ∧
      Slot Tag.ofPart none (ms'.lookup underlyingTagField) tags.underlying ∧
      Slot Kind.ofJson none (ms'.lookup kindField) (some n.kind) := by
  have hlookup {k : String} (hk : k ∈ [kindField, ownTagField, underlyingTagField]) :
      ms'.lookup k = ms.lookup k := by
    refine hputs.lookup_of_ne ?_
    rintro rfl
    rw [fieldSort?_of_reserved hk] at hsort
    cases hsort
  rw [hlookup (by decide), hlookup (by decide), hlookup (by decide)]
  exact ⟨h.own, h.underlying, h.kind⟩

theorem ofPart_of_puts (h : Says ms tags fields n) (hsort : n.kind.fieldSort? key = some sort)
    (hputs : Puts key v? ms ms') (hslot : Slot (Field.ofJson sort) none v? c?) :
    Node.ofPart (.object ms') = assemble tags n.kind (rewriteMember key c? fields) := by
  obtain ⟨hown, hunderlying, hkind⟩ := h.reserved_of_puts hsort hputs
  exact ofPart_eq_assemble hputs.nodup hown hunderlying hkind (h.found_of_puts hsort hputs hslot)

theorem content?_rewriteMember_of_ne {f : String × FieldSort} (hf : f.1 ≠ key) :
    n.kind.content? (rewriteMember key c? fields) f = n.kind.content? fields f := by
  rw [Kind.content?, Kind.content?, Json.lookup_rewriteMember, if_neg hf]

end Says

/-- **A field has the content that is given now**, or its default, and nothing else changes. -/
theorem ofPart_of_puts (hkeys : (keys ms).Nodup) (hn : ofPart (.object ms) = .ok n)
    (hsort : n.kind.fieldSort? key = some sort) (hputs : Puts key v? ms ms')
    (hslot : Slot (Field.ofJson sort) none v? c?) (hc : c?.or (n.kind.default? key) = some c)
    (hkind : form.kind = n.kind) (hfields : form.toFields = putMember key c n.form.toFields) :
    ofPart (.object ms') = .ok (n.withForm form) := by
  obtain ⟨tags, fields, h⟩ := exists_says hkeys hn
  rw [h.ofPart_of_puts hsort hputs hslot]
  refine assemble_eq_ok_iff.mpr ⟨Form.ofFields_eq_ok_iff.mpr ⟨hkind, ?_⟩, h.own_eq, h.underlying_eq⟩
  intro f hf
  rw [form_withForm, hfields] at hf
  obtain ⟨m, hm, rfl⟩ := List.mem_map.mp hf
  split
  next =>
    rw [Kind.content?, Json.lookup_rewriteMember, if_pos rfl]
    cases c? with
    | none => exact hc
    | some d =>
      cases hc
      rw [Option.filter_some, if_pos (decide_eq_true rfl), Option.some_or]
  next hne =>
    rw [Says.content?_rewriteMember_of_ne hne]
    exact (Form.ofFields_eq_ok_iff.mp h.form).2 m hm

/-- **A field without a default cannot be left out.** -/
theorem ofPart_of_puts_missing (hkeys : (keys ms).Nodup) (hn : ofPart (.object ms) = .ok n)
    (hsort : n.kind.fieldSort? key = some sort)
    (hdefault : n.kind.default? key = (none : Option (Field Node))) (hputs : Puts key none ms ms') :
    ofPart (.object ms') = .error (.malformed (.missingField key)) := by
  obtain ⟨tags, fields, h⟩ := exists_says hkeys hn
  rw [h.ofPart_of_puts hsort hputs (slot_none.mpr rfl), assemble]
  have herror : Form.ofFields n.kind (rewriteMember key none fields) = .error key := by
    refine Form.ofFields_eq_error (f := (key, sort)) (Json.mem_of_lookup hsort) ?_ fun f hf hne => ?_
    · rw [Kind.content?, Json.lookup_rewriteMember, if_pos rfl, hdefault]
      rfl
    · have hkey : f.1 ≠ key := by
        rintro rfl
        have hsort' := Json.lookup_of_mem n.kind.nodup_fields (v := f.2) hf
        rw [← Kind.fieldSort?, hsort] at hsort'
        cases hsort'
        exact hne rfl
      rw [Says.content?_rewriteMember_of_ne hkey]
      exact Form.isSome_content? h.form hf
  rw [herror]

/-- Of the fields of a kind the first that cannot be read is the error; here there is one only. -/
theorem readFields_eq_error {kind : Kind} {seen : List String} {v : Json} (hkeys : (keys ms).Nodup)
    (hseen : ∀ k ∈ keys ms, k ∉ seen) (hsort : kind.fieldSort? key = some sort)
    (hv : ms.lookup key = some v) (he : Field.ofJson sort v = .error e)
    (hothers : ∀ k, k ≠ key → ∃ found, FoundField kind k (ms.lookup k) found) :
    readFields kind seen ms = .error e := by
  induction ms generalizing seen with
  | nil => cases hv
  | cons m ms ih =>
    obtain ⟨name, w⟩ := m
    obtain ⟨hfirst, hrest⟩ := List.nodup_cons.mp hkeys
    have hothers' (k : String) (hk : k ≠ key) : ∃ found, FoundField kind k (ms.lookup k) found := by
      by_cases heq : k = name
      · rw [heq, Json.lookup_eq_none_iff_keys.mpr hfirst]
        exact ⟨none, foundField_none.mpr rfl⟩
      · obtain ⟨found, hfound⟩ := hothers k hk
        rw [Json.lookup_cons_of_ne heq] at hfound
        exact ⟨found, hfound⟩
    cases hname : kind.fieldSort? name with
    | none =>
      have hne : key ≠ name := by
        rintro rfl
        rw [hsort] at hname
        cases hname
      rw [Json.lookup_cons_of_ne hne] at hv
      rw [readFields_cons_none hname]
      exact ih hrest (fun k hk => hseen k (List.mem_cons_of_mem _ hk)) hv hothers'
    | some s =>
      rw [readFields_cons_some hname (hseen name List.mem_cons_self)]
      by_cases heq : key = name
      · subst heq
        rw [List.lookup_cons_self] at hv
        cases hv
        cases hname.symm.trans hsort
        rw [he]
        rfl
      · rw [Json.lookup_cons_of_ne heq] at hv
        obtain ⟨found, hfound⟩ := hothers name (Ne.symm heq)
        rw [FoundField.iff_slot hname, List.lookup_cons_self] at hfound
        obtain ⟨c, hc, -⟩ := slot_none_some.mp hfound
        have hseen' : ∀ k ∈ keys ms, k ∉ name :: seen := fun k hk =>
          List.disjoint_cons_right.mpr ⟨hfirst, (List.disjoint_cons_left.mp hseen).2⟩ hk
        rw [hc, ih hrest hseen' hv hothers']
        rfl

/-- **What is wrong with the new content of a field** is the error. -/
theorem ofPart_of_puts_unreadable (hkeys : (keys ms).Nodup) (hn : ofPart (.object ms) = .ok n)
    (hsort : n.kind.fieldSort? key = some sort) {v : Json} (hputs : Puts key (some v) ms ms')
    (he : Field.ofJson sort v = .error e) : ofPart (.object ms') = .error e := by
  obtain ⟨tags, fields, h⟩ := exists_says hkeys hn
  obtain ⟨hown, hunderlying, hkind⟩ := h.reserved_of_puts hsort hputs
  rw [ofPart_eq_bind hputs.nodup hown hunderlying hkind]
  rw [readFields_eq_error hputs.nodup (fun _ _ => List.not_mem_nil) hsort hputs.lookup_self he fun k hk => ?_]
  · rfl
  · rw [hputs.lookup_of_ne hk]
    exact ⟨_, h.found k⟩

/-! ## The kind and the tags -/

theorem readFrom_eq_error (h : ms.lookup kindField = none) :
    Kind.readFrom none ms = .error (.malformed (.missingField kindField)) := by
  induction ms with
  | nil => rfl
  | cons m ms ih =>
    obtain ⟨key, v⟩ := m
    have hne : kindField ≠ key := by
      rintro rfl
      rw [List.lookup_cons_self] at h
      cases h
    rw [Json.lookup_cons_of_ne hne] at h
    rw [Kind.readFrom, if_neg (Ne.symm hne)]
    exact ih h

/-- **The kind cannot be left out.** -/
theorem ofPart_of_puts_kind (hkeys : (keys ms).Nodup) (hn : ofPart (.object ms) = .ok n)
    (hputs : Puts kindField none ms ms') :
    ofPart (.object ms') = .error (.malformed (.missingField kindField)) := by
  obtain ⟨tags, fields, h⟩ := exists_says hkeys hn
  have htags : FoundTags.readPart ms' = .ok tags := by
    refine (FoundTags.readWith_eq_ok_iff hputs.nodup).mpr ⟨?_, ?_⟩
    · rw [hputs.lookup_of_ne (by decide)]
      exact h.own
    · rw [hputs.lookup_of_ne (by decide)]
      exact h.underlying
  rw [ofPart, htags, readFrom_eq_error hputs.lookup_self]
  rfl

/-- What is found for the fields does not change with the tags. -/
theorem Says.found_of_puts_reserved {tags : FoundTags} {fields : List (String × Field Node)}
    (h : Says ms tags fields n) (hreserved : key ∈ [kindField, ownTagField, underlyingTagField])
    (hputs : Puts key v? ms ms') (k : String) :
    FoundField n.kind k (ms'.lookup k) (fields.lookup k) := by
  by_cases hk : k = key
  · have hnone := fieldSort?_of_reserved hreserved n.kind
    rw [hk, FoundField.iff_none hnone]
    exact (FoundField.iff_none hnone).mp (h.found key)
  · rw [hputs.lookup_of_ne hk]
    exact h.found k

/-- **A node's own tag is unknown when it is left out.** -/
theorem ofPart_of_puts_own (hkeys : (keys ms).Nodup) (hn : ofPart (.object ms) = .ok n)
    (hputs : Puts ownTagField none ms ms') :
    ofPart (.object ms') = .ok { n with own := .unknown } := by
  obtain ⟨tags, fields, h⟩ := exists_says hkeys hn
  have hsays : Says ms' ⟨none, tags.underlying⟩ fields { n with own := .unknown } := by
    refine ⟨hputs.nodup, ?_, ?_, ?_, h.found_of_puts_reserved (by decide) hputs, h.form, rfl,
      h.underlying_eq⟩
    · rw [hputs.lookup_self]
      exact slot_none.mpr rfl
    · rw [hputs.lookup_of_ne (by decide)]
      exact h.underlying
    · rw [hputs.lookup_of_ne (by decide)]
      exact h.kind
  exact hsays.ofPart

/-- **So is the tag that was passed down to it.** -/
theorem ofPart_of_puts_underlying (hkeys : (keys ms).Nodup) (hn : ofPart (.object ms) = .ok n)
    (hputs : Puts underlyingTagField none ms ms') :
    ofPart (.object ms') = .ok { n with underlying := .unknown } := by
  obtain ⟨tags, fields, h⟩ := exists_says hkeys hn
  have hsays : Says ms' ⟨tags.own, none⟩ fields { n with underlying := .unknown } := by
    refine ⟨hputs.nodup, ?_, ?_, ?_, h.found_of_puts_reserved (by decide) hputs, h.form, h.own_eq, rfl⟩
    · rw [hputs.lookup_of_ne (by decide)]
      exact h.own
    · rw [hputs.lookup_self]
      exact slot_none.mpr rfl
    · rw [hputs.lookup_of_ne (by decide)]
      exact h.kind
  exact hsays.ofPart

/-! ## The outermost node -/

/-- **The strict reading of the outermost tags makes no difference** to a change that gives no tag. -/
theorem ofJson_of_puts (hkeys : (keys ms).Nodup) (hn : ofJson (.object ms) = .ok n)
    (hputs : Puts key v? ms ms') (htag : key ∈ [ownTagField, underlyingTagField] → v? = none) :
    ofJson (.object ms') = ofPart (.object ms') := by
  obtain ⟨⟨own, underlying, hown, hunderlying⟩, -⟩ := (ofJson_eq_ok_iff hkeys).mp hn
  have hslot {k : String} {after : Option Tag} (hk : k ∈ [ownTagField, underlyingTagField])
      (h : Slot Tag.ofJson none (ms.lookup k) after) :
      ∃ after', Slot Tag.ofJson none (ms'.lookup k) after' := by
    by_cases heq : k = key
    · subst heq
      rw [hputs.lookup_self, htag hk]
      exact ⟨none, slot_none.mpr rfl⟩
    · rw [hputs.lookup_of_ne heq]
      exact ⟨after, h⟩
  obtain ⟨own', hown'⟩ := hslot (.head _) hown
  obtain ⟨underlying', hunderlying'⟩ := hslot (.tail _ (.head _)) hunderlying
  have htags : FoundTags.read ms' = .ok ⟨own', underlying'⟩ :=
    (FoundTags.readWith_eq_ok_iff hputs.nodup).mpr ⟨hown', hunderlying'⟩
  rw [ofJson, htags]
  rfl

end Node

end RepairCorpus
