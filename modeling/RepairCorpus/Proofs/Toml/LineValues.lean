import RepairCorpus.Proofs.Toml.QuotedTexts
import RepairCorpus.Toml.Document

/-!
# Values at the end of a line

A number, a truth value or a text that is followed by a line feed is read as that value, and the line feed is
left.  Decimal digits have to be told from everything else that may begin with a digit, among it dates and
numbers to other bases; here it is enough that the number has no superfluous zero in front.

* `ReadsAs`: characters that are read as a value in front of a line feed.
* `readsAs_number`, `readsAs_flag`, `readsAs_text`: **what is written for a value is read as that value.**
-/

namespace RepairCorpus.Toml

open RepairCorpus.Config (Setting Scalar)

/-- `ReadsAs cs s` holds if characters are read as a value in front of a line feed, however deep it may nest.
They begin with something other than a blank, and there is no carriage return that could be lost with a line end. -/
structure ReadsAs (cs : List Char) (s : Setting) : Prop where
  noReturn : '\r' ∉ cs
  skip (rest : List Char) : skipGap (cs ++ '\n' :: rest) = cs ++ '\n' :: rest
  read (depth fuel : Nat) (rest : List Char) :
    readValue? depth (fuel + 1) (cs ++ '\n' :: rest) = some (s, '\n' :: rest)

/-- Characters that a test tells apart. -/
theorem ne_of_test {test : Char → Bool} {c d : Char} (hc : test c = true) (hd : test d = false) : c ≠ d := by
  rintro rfl
  exact Bool.false_ne_true (hd.symm.trans hc)

/-- No blanks are passed over in front of a character that passes a test blanks do not. -/
theorem skipGap_of_test {test : Char → Bool} {c : Char} (hc : test c = true) (hspace : test ' ' = false)
    (htab : test '\t' = false) (cs : List Char) : skipGap (c :: cs) = c :: cs := by
  have hgap : isGap c = false := by
    simp [isGap, ne_of_test hc hspace, ne_of_test hc htab]
  exact List.dropWhile_cons_of_neg (by simp [hgap])

/-! ## Unquoted scalars -/

/-- An unquoted scalar ends at the line feed. -/
theorem readUnquoted?_line {cs : List Char} {s : Setting} (h : ∀ c ∈ cs, isScalarChar c = true)
    (hs : unquoted? cs = some s) (rest : List Char) :
    readUnquoted? (cs ++ '\n' :: rest) = some (s, '\n' :: rest) := by
  have htake : (cs ++ '\n' :: rest).takeWhile isScalarChar = cs := by
    rw [List.takeWhile_append_of_pos h, List.takeWhile_cons_of_neg (by decide), List.append_nil]
  have hdrop : (cs ++ '\n' :: rest).dropWhile isScalarChar = '\n' :: rest := by
    rw [List.dropWhile_append_of_pos h, List.dropWhile_cons_of_neg (by decide)]
  simp only [readUnquoted?, htake, hdrop]
  -- no blank follows, so that there is nothing longer that could be a date
  show (if isDay cs && isDate cs then (unquoted? cs).map fun s => (s, (cs ++ '\n' :: rest).drop cs.length)
    else (unquoted? cs).map fun s => (s, '\n' :: rest)) = _
  rw [List.drop_left, hs, ite_self, Option.map_some]

/-- An unquoted scalar begins like nothing else. -/
theorem readsAs_unquoted {cs : List Char} {s : Setting} (hne : cs ≠ [])
    (h : ∀ c ∈ cs, isScalarChar c = true) (hs : unquoted? cs = some s) : ReadsAs cs s := by
  obtain ⟨c, cs, rfl⟩ := List.exists_cons_of_ne_nil hne
  have hc : isScalarChar c = true := h c (.head _)
  constructor
  · exact fun hmem => ne_of_test (h '\r' hmem) (by decide) rfl
  · exact fun rest => skipGap_of_test hc (by decide) (by decide) (cs ++ '\n' :: rest)
  · intro depth fuel rest
    have hread := readUnquoted?_line h hs rest
    rw [List.cons_append] at hread ⊢
    rw [readValue?]
    · exact hread
    all_goals
      rintro ds heq
      exact absurd (List.cons.inj heq).1 (ne_of_test hc (by decide))

/-! ## Numbers -/

section Digits

variable {ds : List Char}

theorem digitIn?_of_isDigit {c : Char} (h : c.isDigit = true) :
    Text.digitIn? 10 c = some (c.toNat - '0'.toNat) := by
  have hbound : c.toNat - '0'.toNat < 10 := by
    obtain ⟨-, hlast⟩ := Char.isDigit_iff_toNat.mp h
    exact Nat.sub_lt_left_of_lt_add (Char.isDigit_iff_toNat.mp h).1 (Nat.lt_succ_of_le hlast)
  rw [Text.digitIn?, Text.hexValue?, if_pos h, Option.filter_some, if_pos (decide_eq_true hbound)]

/-- Digits are read as the number they stand for. -/
theorem digitsFrom_eq {n : Nat} {mustFollow : Bool} (hds : ∀ c ∈ ds, c.isDigit = true)
    (hfollow : mustFollow = true → ds ≠ []) :
    digitsFrom 10 n mustFollow ds = some (Nat.ofDigitChars 10 ds n) := by
  induction ds generalizing n mustFollow with
  | nil =>
    cases mustFollow with
    | true => exact absurd rfl (hfollow rfl)
    | false => rfl
  | cons c cs ih =>
    obtain ⟨hc, hcs⟩ := List.forall_mem_cons.mp hds
    have hunderscore : c ≠ '_' := by
      rintro rfl
      cases hc
    rw [digitsFrom, if_neg hunderscore, digitIn?_of_isDigit hc, Option.bind_some,
      ih hcs (absurd · Bool.false_ne_true), Nat.ofDigitChars_cons]

theorem digits?_digitsOf (n : Nat) : digits? 10 (Text.digitsOf n) = some n := by
  rw [digits?, Text.digitsOf, digitsFrom_eq (fun c => Nat.isDigit_of_mem_toDigits (by decide) (by decide))
    fun _ => Nat.toDigits_ne_nil, Nat.ofDigitChars_toDigits (by decide) (by decide)]

/-- A positive number has no zero in front. -/
theorem head?_digitsOf {n : Nat} (hn : 0 < n) : (Text.digitsOf n).head? ≠ some '0' := by
  induction n using Nat.strong_induction_on with
  | _ n ih =>
    rw [Text.digitsOf]
    by_cases hsmall : n < 10
    · have hall : ∀ n < 10, 0 < n → n.digitChar ≠ '0' := by decide
      rw [Nat.toDigits_of_lt_base hsmall]
      exact fun h => hall n hsmall hn (Option.some.inj h)
    · have hdiv : 0 < n / 10 := by omega
      rw [Nat.toDigits_of_base_le (by decide) (by omega),
        List.head?_append_of_ne_nil _ Nat.toDigits_ne_nil]
      exact ih (n / 10) (by omega) hdiv

/-- The digits of a number are read as a whole number. -/
theorem integer?_digitsOf (n : Nat) : integer? (Text.digitsOf n) = some (n : Int) := by
  rcases n.eq_zero_or_pos with rfl | hn
  · rfl
  have hdigit (c : Char) (hc : c ∈ Text.digitsOf n) : c.isDigit = true :=
    Nat.isDigit_of_mem_toDigits (by decide) (by decide) hc
  have hvalue := digits?_digitsOf n
  have hhead := head?_digitsOf hn
  generalize Text.digitsOf n = ds at hdigit hvalue hhead
  cases ds with
  | nil => cases hvalue
  | cons c cs =>
    have hc := hdigit c (.head _)
    have hzero : c ≠ '0' := fun h => hhead (congrArg some h)
    have hsign : splitSign (c :: cs) = (false, c :: cs) := by
      rw [splitSign]
      · exact fun ds heq => ne_of_test hc (by decide) (List.cons.inj heq).1
      · exact fun ds heq => ne_of_test hc (by decide) (List.cons.inj heq).1
    have hdecimal : decimal? (c :: cs) = some n := by
      rw [decimal?]
      · exact hvalue
      · exact fun d ds heq => hzero (List.cons.inj heq).1
    rw [integer?]
    · rw [hsign]
      simp [hdecimal]
    all_goals exact fun ds heq => hzero (List.cons.inj heq).1

/-- **A number of a signed machine word** is read as that number. -/
theorem readsAs_number {n : Nat} (hbound : n < UInt64.size / 2) :
    ReadsAs (Text.digitsOf n) (.scalar (.ofInt n)) := by
  have hdigit (c : Char) (hc : c ∈ Text.digitsOf n) : c.isDigit = true :=
    Nat.isDigit_of_mem_toDigits (by decide) (by decide) hc
  refine readsAs_unquoted Nat.toDigits_ne_nil (fun c hc => ?_) ?_
  · rw [isScalarChar, Char.isAlphanum, hdigit c hc, Bool.or_true]
    rfl
  · have hfits : fits (n : Int) = true := by
      have hlow : -((UInt64.size / 2 : Nat) : Int) ≤ n := by omega
      rw [fits, Bool.and_eq_true]
      exact ⟨decide_eq_true (Int.ofNat_lt.mpr hbound), decide_eq_true hlow⟩
    have htrue : Text.digitsOf n ≠ "true".toList := fun heq => by
      have h := hdigit 't' (heq ▸ by decide)
      cases h
    have hfalse : Text.digitsOf n ≠ "false".toList := fun heq => by
      have h := hdigit 'f' (heq ▸ by decide)
      cases h
    rw [unquoted?, if_neg htrue, if_neg hfalse, integer?_digitsOf n]
    simp only [hfits, if_true]

end Digits

/-! ## Truth values and texts -/

theorem readsAs_flag (b : Bool) :
    ReadsAs (if b then "true" else "false").toList (.scalar (.ofBool b)) := by
  cases b with
  | true => exact readsAs_unquoted (by decide) (List.all_eq_true.mp (by decide)) rfl
  | false => exact readsAs_unquoted (by decide) (List.all_eq_true.mp (by decide)) rfl

/-- **A quoted text** is read as that text. -/
theorem readsAs_text (s : String) : ReadsAs (write s).toList (.scalar (.ofText s)) := by
  have hread (rest : List Char) : read? true ((write s).toList ++ '\n' :: rest) = some (s, '\n' :: rest) := by
    have hfeed {c : Char} (hc : '\n' ≠ c) : ('\n' :: rest).head? ≠ some c := fun heq => hc (Option.some.inj heq)
    exact read?_write s (hfeed (by decide)) (hfeed (by decide))
  obtain ⟨c, cs, heq, hc⟩ : ∃ c cs, (write s).toList = c :: cs ∧ (c = '"' ∨ c = '\'') := by
    rw [write, String.toList_ofList]
    cases formFor s.toList with
    | basic => exact ⟨'"', _, rfl, .inl rfl⟩
    | literal => exact ⟨'\'', _, rfl, .inr rfl⟩
    | basicLines => exact ⟨'"', _, rfl, .inl rfl⟩
    | literalLines => exact ⟨'\'', _, rfl, .inr rfl⟩
  have hreturn := return_notMem_write s
  rw [heq] at hread hreturn ⊢
  constructor
  · exact hreturn
  · intro rest
    rcases hc with rfl | rfl <;> rfl
  · intro depth fuel rest
    have hvalue : readValue? depth (fuel + 1) (c :: cs ++ '\n' :: rest)
        = (read? true (c :: cs ++ '\n' :: rest)).map fun x => (.scalar (.ofText x.1), x.2) := by
      rcases hc with rfl | rfl <;> rfl
    rw [hvalue, hread, Option.map_some]

end RepairCorpus.Toml
