import Mathlib.Data.List.TakeWhile
import RepairCorpus.Proofs.Corpus.SequencePaths
import RepairCorpus.Proofs.Results

/-!
# Names of files of pairs

A name is recognised by its end, which has a word for the category, digits and a word for the role.  The
three are read from the right: the digits are all that stand in front of the role, whatever their script,
and since neither words nor digits can be taken for each other, there is at most one way to read a name
(`PairName.parse?_eq_some_iff`).

The path that a sink gives to a file of pairs is read back as what the file belongs to, as long as the
number of the bucket is below the bound for such numbers.

* `PairName.parse?_eq_some_iff`: **which names are recognised**.
* `bucketFrom_eq_ok_iff`: **which numbers can be read**.
* `Denotes`: what a name is the name of; `denotes_path`: **a sequence file of pairs has a name of its own**.
-/

namespace RepairCorpus

/-! ## Ends of texts -/

theorem cutEnd?_eq_some_iff {tail : String} {cs front : List Char} :
    cutEnd? tail cs = some front ↔ cs = front ++ tail.toList := by
  have hlength : tail.length = tail.toList.length := String.length_toList.symm
  rw [cutEnd?]
  constructor
  · intro h
    split at h
    next hsuffix =>
      obtain ⟨front', rfl⟩ := List.isSuffixOf_iff_suffix.mp hsuffix
      rw [hlength, List.length_append, Nat.add_sub_cancel, List.take_left'] at h
      · cases h
        rfl
      · rfl
    next => cases h
  · rintro rfl
    rw [if_pos (List.isSuffixOf_iff_suffix.mpr (List.suffix_append _ _)), hlength, List.length_append,
      Nat.add_sub_cancel, List.take_left' rfl]

theorem isSome_cutEnd?_iff {tail : String} {cs : List Char} :
    (cutEnd? tail cs).isSome = true ↔ ∃ front, cs = front ++ tail.toList := by
  rw [Option.isSome_iff_exists]
  exact exists_congr fun front => cutEnd?_eq_some_iff

/-- Texts that end alike have the same last character. -/
theorem getLast?_eq_of_append_eq {front front' word word' : List Char} (hword : word ≠ [])
    (hword' : word' ≠ []) (h : front ++ word = front' ++ word') : word.getLast? = word'.getLast? := by
  rw [← List.getLast?_append_of_ne_nil front hword, h, List.getLast?_append_of_ne_nil front' hword']

/-- The digits at the end of a text. -/
def endDigits (stem : List Char) : List Char := (stem.reverse.takeWhile Text.isDecimalDigit).reverse

theorem endDigits_append {front digits : List Char} (hdigits : ∀ c ∈ digits, Text.isDecimalDigit c = true)
    (hfront : ∀ c, front.getLast? = some c → Text.isDecimalDigit c = false) :
    endDigits (front ++ digits) = digits := by
  have hnone : front.reverse.takeWhile Text.isDecimalDigit = [] := by
    cases hreverse : front.reverse with
    | nil => rfl
    | cons c cs =>
      have hlast : front.getLast? = some c := by
        rw [List.getLast?_eq_head?_reverse, hreverse]
        rfl
      rw [List.takeWhile_cons_of_neg]
      rw [hfront c hlast]
      exact Bool.false_ne_true
  have hpos : ∀ c ∈ digits.reverse, Text.isDecimalDigit c = true := fun c hc =>
    hdigits c (List.mem_reverse.mp hc)
  rw [endDigits, List.reverse_append, List.takeWhile_append_of_pos hpos, hnone, List.append_nil,
    List.reverse_reverse]

theorem isDecimalDigit_of_mem_endDigits {stem : List Char} {c : Char} (h : c ∈ endDigits stem) :
    Text.isDecimalDigit c = true :=
  List.mem_takeWhile_imp (List.mem_reverse.mp h)

/-- What stands before the digits at the end. -/
theorem take_append_endDigits (stem : List Char) :
    stem.take (stem.length - (endDigits stem).length) ++ endDigits stem = stem := by
  have hstem : (stem.reverse.dropWhile Text.isDecimalDigit).reverse ++ endDigits stem = stem := by
    rw [endDigits, ← List.reverse_append, List.takeWhile_append_dropWhile, List.reverse_reverse]
  generalize endDigits stem = digits at hstem ⊢
  rw [← hstem, List.length_append, Nat.add_sub_cancel, List.take_left' rfl]

/-! ## Reading a name -/

namespace PairName

variable {name : String} {p q : PairName} {role : Role} {c : Category}

/-- The category, the digits and the role of a file of pairs. -/
structure Valid (p : PairName) : Prop where
  category : p.category ∈ pairCategories
  role : p.role ≠ .single
  nonempty : p.digits ≠ []
  digits : ∀ c ∈ p.digits, Text.isDecimalDigit c = true

/-- The three parts, put together. -/
def text (p : PairName) : String :=
  "seq-" ++ p.category.name ++ String.ofList p.digits ++ ("." ++ p.role.extension)

/-- `p.Ends name` holds if a name ends with the three parts of `p`. -/
structure Ends (p : PairName) (name : String) : Prop extends Valid p where
  suffix : p.text.toList <:+ name.toList

theorem toList_text (p : PairName) : p.text.toList =
    ("seq-" ++ p.category.name).toList ++ p.digits ++ ("." ++ p.role.extension).toList := by
  rw [text, String.toList_append, String.toList_append, String.toList_ofList]

theorem suffix_text_iff {cs : List Char} : p.text.toList <:+ cs ↔ ∃ front,
    cs = front ++ ("seq-" ++ p.category.name).toList ++ p.digits ++ ("." ++ p.role.extension).toList := by
  rw [toList_text]
  refine exists_congr fun front => ?_
  rw [eq_comm, ← List.append_assoc, ← List.append_assoc]

/-- A name that is nothing but the three parts ends with them. -/
theorem Valid.ends_text (h : p.Valid) : p.Ends p.text := ⟨h, List.suffix_rfl⟩

/-- Different words for a category end differently, and not with a digit. -/
theorem category_word_end (hc : c ∈ pairCategories) :
    ("seq-" ++ c.name).toList ≠ [] ∧
      (∀ x, ("seq-" ++ c.name).toList.getLast? = some x → Text.isDecimalDigit x = false) ∧
      ∀ c' ∈ pairCategories,
        ("seq-" ++ c.name).toList.getLast? = ("seq-" ++ c'.name).toList.getLast? → c = c' := by
  have hall : ∀ c ∈ pairCategories, ("seq-" ++ c.name).toList ≠ [] ∧
      (("seq-" ++ c.name).toList.getLast?.all fun x => !Text.isDecimalDigit x) = true ∧
      ∀ c' ∈ pairCategories,
        ("seq-" ++ c.name).toList.getLast? = ("seq-" ++ c'.name).toList.getLast? → c = c' := by
    decide
  obtain ⟨hne, hdigit, hword⟩ := hall c hc
  refine ⟨hne, fun x hx => ?_, hword⟩
  rw [hx] at hdigit
  exact (Bool.not_eq_true' _).mp hdigit

/-- The words for the two roles end differently. -/
theorem role_word_end (hrole : role ≠ .single) {role' : Role} (hrole' : role' ≠ .single)
    (h : ("." ++ role.extension).toList.getLast? = ("." ++ role'.extension).toList.getLast?) :
    role = role' := by
  cases role <;> cases role' <;> first | rfl | exact absurd rfl hrole | exact absurd rfl hrole' |
    exact absurd h (by decide)

/-- Reads what stands before the word for the role. -/
def parseStem? (role : Role) (stem : List Char) : Option PairName :=
  if (endDigits stem).isEmpty then none
  else
    (pairCategories.find? fun c =>
        (cutEnd? ("seq-" ++ c.name) (stem.take (stem.length - (endDigits stem).length))).isSome).map
      fun c => ⟨c, endDigits stem, role⟩

theorem parse?_eq (name : String) : parse? name =
    [Role.buggy, .correct].findSome? fun role =>
      (cutEnd? ("." ++ role.extension) name.toList).bind (parseStem? role) := rfl

theorem parseStem?_eq_some_iff {stem : List Char} : parseStem? role stem = some p ↔
    p.category ∈ pairCategories ∧ p.role = role ∧ p.digits ≠ [] ∧
      (∀ c ∈ p.digits, Text.isDecimalDigit c = true) ∧
      ∃ front, stem = front ++ ("seq-" ++ p.category.name).toList ++ p.digits := by
  rw [parseStem?]
  constructor
  · intro h
    split at h
    next => cases h
    next hdigits =>
      obtain ⟨c, hfind, rfl⟩ := Option.map_eq_some_iff.mp h
      have hcut := List.find?_some hfind
      obtain ⟨front, hfront⟩ := isSome_cutEnd?_iff.mp hcut
      refine ⟨List.mem_of_find?_eq_some hfind, rfl, fun hempty => hdigits ?_,
        fun c hc => isDecimalDigit_of_mem_endDigits hc, front, ?_⟩
      · rw [show endDigits stem = [] from hempty]
        rfl
      · rw [← hfront, take_append_endDigits]
  · rintro ⟨hcategory, rfl, hne, hdigits, front, rfl⟩
    obtain ⟨hword, hdigit, -⟩ := category_word_end hcategory
    have hend : endDigits (front ++ ("seq-" ++ p.category.name).toList ++ p.digits) = p.digits := by
      refine endDigits_append hdigits fun x hx => hdigit x ?_
      rw [← hx, List.getLast?_append_of_ne_nil front hword]
    rw [hend, List.length_append, Nat.add_sub_cancel, List.take_left' rfl,
      if_neg (fun hempty => hne (List.isEmpty_iff.mp hempty))]
    have hfind : (pairCategories.find? fun c =>
        (cutEnd? ("seq-" ++ c.name) (front ++ ("seq-" ++ p.category.name).toList)).isSome) =
        some p.category := by
      refine List.find?_eq_some_of_unique hcategory (isSome_cutEnd?_iff.mpr ⟨front, rfl⟩) fun c hc hcut => ?_
      obtain ⟨front', hfront'⟩ := isSome_cutEnd?_iff.mp hcut
      obtain ⟨hword', -, hsame⟩ := category_word_end hc
      exact hsame _ hcategory (getLast?_eq_of_append_eq hword' hword hfront'.symm)
    rw [hfind]
    rfl

theorem parseAs?_eq_some_iff (hrole : role ≠ .single) :
    (cutEnd? ("." ++ role.extension) name.toList).bind (parseStem? role) = some p ↔
      p.Ends name ∧ p.role = role := by
  rw [Option.bind_eq_some_iff]
  constructor
  · rintro ⟨stem, hcut, hstem⟩
    obtain ⟨hcategory, rfl, hne, hdigits, front, rfl⟩ := parseStem?_eq_some_iff.mp hstem
    exact ⟨⟨⟨hcategory, hrole, hne, hdigits⟩, suffix_text_iff.mpr ⟨front, cutEnd?_eq_some_iff.mp hcut⟩⟩, rfl⟩
  · rintro ⟨hends, rfl⟩
    obtain ⟨front, hshape⟩ := suffix_text_iff.mp hends.suffix
    exact ⟨_, cutEnd?_eq_some_iff.mpr hshape, parseStem?_eq_some_iff.mpr
      ⟨hends.category, rfl, hends.nonempty, hends.digits, front, rfl⟩⟩

/-- The role of a name can be told by its end. -/
theorem Ends.role_eq (hp : p.Ends name) (hq : q.Ends name) : p.role = q.role := by
  obtain ⟨front, hfront⟩ := suffix_text_iff.mp hp.suffix
  obtain ⟨front', hfront'⟩ := suffix_text_iff.mp hq.suffix
  have hne (role : Role) : ("." ++ role.extension).toList ≠ [] := by cases role <;> decide
  exact role_word_end hp.role hq.role
    (getLast?_eq_of_append_eq (hne _) (hne _) (hfront.symm.trans hfront'))

/-- **Which names are recognised**: those that end with a category, digits and a role. -/
theorem parse?_eq_some_iff : parse? name = some p ↔ p.Ends name := by
  have hbuggy : Role.buggy ≠ .single := by decide
  have hcorrect : Role.correct ≠ .single := by decide
  rw [parse?_eq, List.findSome?_cons, List.findSome?_cons, List.findSome?_nil]
  constructor
  · intro h
    split at h
    next heq =>
      cases h
      exact ((parseAs?_eq_some_iff hbuggy).mp heq).1
    next =>
      split at h
      next heq =>
        cases h
        exact ((parseAs?_eq_some_iff hcorrect).mp heq).1
      next => cases h
  · intro hends
    cases hrole : p.role with
    | buggy => rw [(parseAs?_eq_some_iff hbuggy).mpr ⟨hends, hrole⟩]
    | correct =>
      cases hfirst : (cutEnd? ("." ++ Role.buggy.extension) name.toList).bind (parseStem? .buggy) with
      | none =>
        dsimp only
        rw [(parseAs?_eq_some_iff hcorrect).mpr ⟨hends, hrole⟩]
      | some q =>
        obtain ⟨hends', hrole'⟩ := (parseAs?_eq_some_iff hbuggy).mp hfirst
        cases hrole.symm.trans ((hends.role_eq hends').trans hrole')
    | single => exact absurd hrole hends.role

/-- Whether a name is recognised. -/
def isPairName (name : String) : Bool := (parse? name).isSome

theorem isPairName_iff : isPairName name = true ↔ ∃ p : PairName, p.Ends name := by
  rw [isPairName, Option.isSome_iff_exists]
  exact exists_congr fun p => parse?_eq_some_iff

end PairName

/-! ## Reading a number -/

theorem le_ofDigitChars (n : Nat) (ds : List Char) : n ≤ Nat.ofDigitChars 10 ds n := by
  induction ds generalizing n with
  | nil => exact Nat.le_of_eq Nat.ofDigitChars_nil.symm
  | cons c cs ih =>
    rw [Nat.ofDigitChars_cons]
    exact Nat.le_trans (by omega) (ih _)

/-- **Which numbers can be read**: those in ASCII digits that are below the bound. -/
theorem bucketFrom_eq_ok_iff {n b : Nat} {ds : List Char} (hn : n < bucketBound) :
    bucketFrom n ds = .ok b ↔
      (∀ c ∈ ds, c.isDigit = true) ∧ Nat.ofDigitChars 10 ds n = b ∧ b < bucketBound := by
  induction ds generalizing n with
  | nil =>
    rw [bucketFrom, Nat.ofDigitChars_nil, Except.ok.injEq]
    constructor
    · rintro rfl
      exact ⟨nofun, rfl, hn⟩
    · exact fun h => h.2.1
  | cons c cs ih =>
    rw [bucketFrom, Nat.ofDigitChars_cons, List.forall_mem_cons, Text.digitValue?]
    by_cases hc : c.isDigit = true
    · rw [if_pos hc]
      dsimp only
      by_cases hnext : 10 * n + (c.toNat - '0'.toNat) < bucketBound
      · rw [if_pos hnext, ih hnext, and_iff_right hc]
      · rw [if_neg hnext]
        refine iff_of_false nofun ?_
        rintro ⟨-, rfl, hb⟩
        exact hnext (Nat.lt_of_le_of_lt (le_ofDigitChars _ cs) hb)
    · rw [if_neg hc]
      exact iff_of_false nofun fun h => hc h.1.1

/-! ## Names and files -/

/-- `Denotes name f` holds if a name ends like that of the file of `f`, up to zeros before the number. -/
def Denotes (name : String) (f : SequenceKey) : Prop :=
  ∃ p : PairName, p.Ends name ∧ ∃ b, p.bucket = .ok b ∧ f = ⟨p.category, some b, p.role⟩

theorem isDecimalDigit_of_isDigit {c : Char} (h : c.isDigit = true) : Text.isDecimalDigit c = true := by
  obtain ⟨hfirst, hlast⟩ := Char.isDigit_iff_toNat.mp h
  refine List.any_eq_true.mpr ⟨0x30, .head _, ?_⟩
  rw [Bool.and_eq_true]
  exact ⟨decide_eq_true hfirst, decide_eq_true (Nat.lt_succ_of_le hlast)⟩

theorem isDigit_of_mem_digitsOf {n : Nat} {c : Char} (h : c ∈ Text.digitsOf n) : c.isDigit = true :=
  Nat.isDigit_of_mem_toDigits (by decide) (by decide) h

/-- The name of a file of pairs, taken apart. -/
def pairName (category : Category) (bucket : Nat) (role : Role) : PairName :=
  ⟨category, Text.digitsOf bucket, role⟩

variable {category : Category} {role : Role}

theorem valid_pairName (bucket : Nat) (hcategory : category ∈ pairCategories) (hrole : role ≠ .single) :
    (pairName category bucket role).Valid where
  category := hcategory
  role := hrole
  nonempty := Nat.toDigits_ne_nil
  digits _ hc := isDecimalDigit_of_isDigit (isDigit_of_mem_digitsOf hc)

/-- The name of a sequence file is nothing but its three parts. -/
theorem text_pairName (category : Category) (bucket : Nat) (role : Role) :
    (pairName category bucket role).text = (⟨category, some bucket, role⟩ : SequenceKey).path "seq" := by
  refine String.toList_injective ?_
  have hword : ("seq-" ++ category.name).toList = "seq".toList ++ ("-" ++ category.name).toList := by
    rw [String.toList_append, String.toList_append, ← List.append_assoc]
    rfl
  have hdigits : (SequenceKey.number (some bucket)).toList = Text.digitsOf bucket := String.toList_ofList
  have hpath (f : SequenceKey) : (f.path "seq").toList = "seq".toList ++ f.tail.toList := by
    rw [SequenceKey.path_eq, String.toList_append]
  rw [PairName.toList_text, hpath, SequenceKey.toList_tail, pairName, hword, hdigits]
  simp only [List.append_assoc]

/-- The number of a bucket is read back. -/
theorem bucket_pairName {bucket : Nat} (h : bucket < bucketBound) :
    (pairName category bucket role).bucket = .ok bucket :=
  (bucketFrom_eq_ok_iff (by decide)).mpr
    ⟨fun _ hc => isDigit_of_mem_digitsOf hc, Nat.ofDigitChars_toDigits (by decide) (by decide), h⟩

/-- **A sequence file of pairs has a name of its own.** -/
theorem denotes_path {bucket : Nat} (hcategory : category ∈ pairCategories) (hrole : role ≠ .single)
    (h : bucket < bucketBound) :
    Denotes ((⟨category, some bucket, role⟩ : SequenceKey).path "seq") ⟨category, some bucket, role⟩ :=
  ⟨_, text_pairName category bucket role ▸ (valid_pairName bucket hcategory hrole).ends_text, bucket,
    bucket_pairName h, rfl⟩

end RepairCorpus
