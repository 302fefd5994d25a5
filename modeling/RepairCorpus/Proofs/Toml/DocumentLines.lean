import RepairCorpus.Proofs.Json.Members
import RepairCorpus.Proofs.Toml.LineValues
import RepairCorpus.Toml.Writer

/-!
# Documents line by line

A document that opens each of its tables once, by a header of its own, and then lists the pairs of that table,
is read without any of the rules about tables that have come about in another way.  At each point there is one
table that can grow, and the rest of the document is a frame around it.

* `Surrounds`: a frame around the table at the end of a path.
* `Draft.Passes`: lines that take a document under construction one step further, whatever follows them.
* `Draft.passes_header`, `Draft.passes_pair`, `Draft.passes_pairs`: the lines of such a document.
* `readDocument?_of_passes`: **a text of such lines is read as the document they build up.**
-/

namespace RepairCorpus.Toml

open RepairCorpus.Config (Setting)
open RepairCorpus.Json (keys lookup_eq_none_iff_keys)

/-! ## Keys -/

theorem Bare.exists_cons {name : String} (h : Bare name) :
    ∃ c cs, name.toList = c :: cs ∧ isNameChar c = true := by
  obtain ⟨c, cs, hname⟩ := List.exists_cons_of_ne_nil h.ne_nil
  exact ⟨c, cs, hname, h.chars c (hname ▸ .head _)⟩

theorem Bare.noReturn {name : String} (h : Bare name) : '\r' ∉ name.toList :=
  fun hmem => ne_of_test (h.chars '\r' hmem) (by decide) rfl

section Keys

variable {name next : String} {names : List String} {c : Char} {n : Nat}

theorem keyText_singleton (name : String) : keyText [name] = name.toList :=
  List.intercalate_singleton

theorem keyText_cons_cons : keyText (name :: next :: names) = name.toList ++ '.' :: keyText (next :: names) := rfl

/-- A name without quotes goes as far as its characters do. -/
theorem readName?_cons (h : isNameChar c = true) (cs : List Char) :
    readName? (c :: cs)
      = some (String.ofList ((c :: cs).takeWhile isNameChar), skipGap ((c :: cs).dropWhile isNameChar)) := by
  have hskip : skipGap (c :: cs) = c :: cs := skipGap_of_test h (by decide) (by decide) cs
  have hmark : ¬ (c = '"' ∨ c = '\'') := not_or.mpr ⟨ne_of_test h (by decide), ne_of_test h (by decide)⟩
  have hsome : ((c :: cs).takeWhile isNameChar).isEmpty = false := by
    rw [List.takeWhile_cons_of_pos h]
    rfl
  rw [readName?, hskip]
  simp only [if_neg hmark, hsome, Bool.false_eq_true, if_false]

/-- A name ends at the first character that cannot be part of one. -/
theorem readName?_bare (h : Bare name) (hc : isNameChar c = false) (rest : List Char) :
    readName? (name.toList ++ c :: rest) = some (name, skipGap (c :: rest)) := by
  have htake : (name.toList ++ c :: rest).takeWhile isNameChar = name.toList := by
    rw [List.takeWhile_append_of_pos h.chars, List.takeWhile_cons_of_neg (by simp [hc]), List.append_nil]
  have hdrop : (name.toList ++ c :: rest).dropWhile isNameChar = c :: rest := by
    rw [List.dropWhile_append_of_pos h.chars, List.dropWhile_cons_of_neg (by simp [hc])]
  have hread : readName? (name.toList ++ c :: rest)
      = some (String.ofList ((name.toList ++ c :: rest).takeWhile isNameChar),
        skipGap ((name.toList ++ c :: rest).dropWhile isNameChar)) := by
    obtain ⟨d, ds, hname, hd⟩ := h.exists_cons
    rw [hname]
    exact readName?_cons hd (ds ++ c :: rest)
  rw [hread, htake, hdrop, String.ofList_toList]

/-- The last name of a key is followed by something other than a dot. -/
theorem readKey?_last (h : Bare name) (hc : isNameChar c = false) {rest : List Char} {d : Char} {ds : List Char}
    (hskip : skipGap (c :: rest) = d :: ds) (hdot : d ≠ '.') :
    readKey? (n + 1) (name.toList ++ c :: rest) = some ([name], d :: ds) := by
  rw [readKey?, readName?_bare h hc, hskip]
  split
  · next heq => cases heq
  · next name' rest' heq =>
    cases heq
    exact absurd rfl hdot
  · next name' rest' _ heq =>
    cases heq
    rfl

/-- Behind a dot the key goes on. -/
theorem readKey?_dot (h : Bare name) (rest : List Char) :
    readKey? (n + 1) (name.toList ++ '.' :: rest) = (readKey? n rest).map fun x => (name :: x.1, x.2) := by
  have hskip : skipGap ('.' :: rest) = '.' :: rest := List.dropWhile_cons_of_neg (by decide)
  rw [readKey?, readName?_bare h (by decide), hskip]
  rfl

/-- A key begins as its first name does. -/
theorem exists_cons_keyText (hne : names ≠ []) (hbare : ∀ name ∈ names, Bare name) :
    ∃ c cs, keyText names = c :: cs ∧ isNameChar c = true := by
  obtain ⟨name, names, rfl⟩ := List.exists_cons_of_ne_nil hne
  obtain ⟨c, cs, hname, hc⟩ := (hbare name (.head _)).exists_cons
  cases names with
  | nil =>
    exact ⟨c, cs, (keyText_singleton name).trans hname, hc⟩
  | cons next names =>
    refine ⟨c, cs ++ '.' :: keyText (next :: names), ?_, hc⟩
    rw [keyText_cons_cons, hname, List.cons_append]

/-- A key is read up to the first character that cannot be part of one. -/
theorem readKey?_keyText (hne : names ≠ []) (hbare : ∀ name ∈ names, Bare name) (hn : names.length ≤ n)
    (hc : isNameChar c = false) {rest : List Char} {d : Char} {ds : List Char}
    (hskip : skipGap (c :: rest) = d :: ds) (hdot : d ≠ '.') :
    readKey? n (keyText names ++ c :: rest) = some (names, d :: ds) := by
  induction names generalizing n with
  | nil => exact absurd rfl hne
  | cons name names ih =>
    obtain ⟨hname, hnames⟩ := List.forall_mem_cons.mp hbare
    cases n with
    | zero => cases hn
    | succ n =>
      cases names with
      | nil =>
        rw [keyText_singleton]
        exact readKey?_last hname hc hskip hdot
      | cons next names =>
        rw [keyText_cons_cons, List.append_assoc, List.cons_append, readKey?_dot hname,
          ih (List.cons_ne_nil next names) hnames (Nat.le_of_succ_le_succ hn), Option.map_some]

theorem splitKey_concat (path : List String) (name : String) : splitKey (path ++ [name]) = (path, name) := by
  induction path with
  | nil => rfl
  | cons first path ih =>
    cases path with
    | nil => rfl
    | cons second path =>
      rw [List.cons_append, List.cons_append, splitKey]
      · rw [← List.cons_append, ih]
      · intro heq
        cases heq

end Keys

/-! ## The table that can grow -/

section Tables

variable {name : String} {item : Item} {inner : Rows} {path : List String} {whole : Rows → Rows}

theorem put_of_notMem (h : name ∉ keys inner) : inner.put name item = inner ++ [(name, item)] := by
  induction inner with
  | nil => rfl
  | cons row rows ih =>
    rw [Json.keys_cons, List.mem_cons, not_or] at h
    rw [Rows.put, if_neg (Ne.symm h.1), ih h.2, List.cons_append]

theorem put_concat (h : name ∉ keys inner) (old : Item) :
    Rows.put name item (inner ++ [(name, old)]) = inner ++ [(name, item)] := by
  induction inner with
  | nil => exact if_pos rfl
  | cons row rows ih =>
    rw [Json.keys_cons, List.mem_cons, not_or] at h
    rw [List.cons_append, Rows.put, if_neg (Ne.symm h.1), ih h.2, List.cons_append]

theorem lookup_concat (h : name ∉ keys inner) : (inner ++ [(name, item)]).lookup name = some item := by
  rw [List.lookup_append, lookup_eq_none_iff_keys.mpr h, Option.none_or, List.lookup_cons_self]

/-- A path is followed name by name. -/
theorem changeAt_append (byKey : Bool) (change : Origin → Rows → Option Rows) (path rest : List String)
    (origin : Origin) (rows : Rows) :
    Rows.changeAt byKey change (path ++ rest) origin rows
      = Rows.changeAt byKey (Rows.changeAt byKey change rest) path origin rows := by
  induction path generalizing origin rows with
  | nil => rfl
  | cons name path ih =>
    rw [List.cons_append, Rows.changeAt, Rows.changeAt]
    simp only [ih]

/-- `Surrounds path whole` holds if `whole` is the rest of a document around the table at the end of a path: what
is done to that table leaves the rest as it is. -/
def Surrounds (path : List String) (whole : Rows → Rows) : Prop :=
  ∀ (change : Rows → Option Rows) (origin : Origin) (inner : Rows),
    Rows.changeAt false (fun _ => change) path origin (whole inner) = (change inner).map whole

/-- The table of the whole document has nothing around it. -/
theorem Surrounds.root : Surrounds [] id := by
  intro change origin inner
  rw [Option.map_id]
  rfl

/-- A table that comes last in an open table. -/
theorem Surrounds.below (h : Surrounds path whole) (hname : name ∉ keys inner) (origin : Origin) :
    Surrounds (path ++ [name]) fun rows => whole (inner ++ [(name, .table origin rows)]) := by
  intro change first rows
  have hlast : Rows.changeAt false (fun _ => change) [name] .header (inner ++ [(name, .table origin rows)])
      = (change rows).map fun rows => inner ++ [(name, .table origin rows)] := by
    rw [Rows.changeAt, lookup_concat hname]
    simp only [Bool.false_eq_true, false_and, if_false, Rows.changeAt, put_concat hname]
  -- on a way with names left to go, it does not matter how the table has come about
  have hway : Rows.changeAt false (fun _ => change) [name]
      = fun _ => Rows.changeAt false (fun _ => change) [name] .header := rfl
  rw [changeAt_append, hway, h, hlast, Option.map_map]
  rfl

/-- A header opens a table at the end of the table above it. -/
theorem Surrounds.openTable (h : Surrounds path whole) (hname : name ∉ keys inner) :
    Rows.openTable path name (whole inner) = some (whole (inner ++ [(name, .table .header [])])) := by
  rw [Rows.openTable, h, lookup_eq_none_iff_keys.mpr hname, Option.map_some, put_of_notMem hname]

/-- A pair is added at the end of the open table. -/
theorem Surrounds.addPair (h : Surrounds path whole) (hname : name ∉ keys inner) :
    Rows.changeOpened path (Rows.addPair [] name item) (whole inner) = some (whole (inner ++ [(name, item)])) := by
  have hadd : Rows.addPair [] name item inner = some (inner ++ [(name, item)]) := by
    rw [Rows.addPair, Rows.changeAt, if_pos (.inl rfl), Rows.addNew, lookup_eq_none_iff_keys.mpr hname,
      put_of_notMem hname]
  rw [Rows.changeOpened, h, hadd, Option.map_some]

end Tables

/-! ## Lines -/

theorem return_notMem_headerLine {path : List String} (h : ∀ name ∈ path, Bare name) : '\r' ∉ headerLine path := by
  have hkey : '\r' ∉ keyText path := by
    induction path with
    | nil => exact List.not_mem_nil
    | cons name path ih =>
      obtain ⟨hname, hpath⟩ := List.forall_mem_cons.mp h
      cases path with
      | nil =>
        rw [keyText_singleton]
        exact hname.noReturn
      | cons next path => simp [keyText_cons_cons, hname.noReturn, ih hpath]
  simp [headerLine, hkey]

/-- A pair in writing: its name, the characters of its value, and what they are read as. -/
structure Pair where
  name : String
  chars : List Char
  value : Setting
  bare : Bare name
  readsAs : ReadsAs chars value

namespace Pair

/-- The line of a pair. -/
def line (p : Pair) : List Char := pairLine p.name p.chars

theorem return_notMem_line (p : Pair) : '\r' ∉ p.line := by
  simp [line, pairLine, p.bare.noReturn, p.readsAs.noReturn]

/-- The row that a pair adds to its table. -/
def row (p : Pair) : String × Item := (p.name, .value p.value)

theorem settingsOf_map_row (ps : List Pair) : settingsOf (ps.map row) = ps.map fun p => (p.name, p.value) := by
  induction ps with
  | nil => rw [List.map_nil, List.map_nil, settingsOf]
  | cons p ps ih => rw [List.map_cons, List.map_cons, row, settingsOf, ih, Item.toSetting]

end Pair

namespace Draft

/-- `d.Passes text d'` holds if the lines of a text take a document under construction from `d` to `d'`, whatever
follows them.  The lines end with a line feed alone, they do not begin with a byte order mark, and there are no more
of them than characters, so that the length of a text is fuel enough for its lines. -/
structure Passes (d : Draft) (text : List Char) (d' : Draft) : Prop where
  noReturn : '\r' ∉ text
  noMark : text.head? ≠ some '\uFEFF'
  read : ∃ lines ≤ text.length, ∀ fuel rest, readAll? (fuel + lines) d (text ++ rest) = readAll? fuel d' rest

section Passes

variable {d d₁ d₂ : Draft} {text text₁ text₂ : List Char} {c : Char} {cs : List Char} {fuel : Nat}

theorem Passes.refl (d : Draft) : d.Passes [] d where
  noReturn := List.not_mem_nil
  noMark := nofun
  read := ⟨0, Nat.le_refl 0, fun _ _ => rfl⟩

theorem Passes.trans (h₁ : d.Passes text₁ d₁) (h₂ : d₁.Passes text₂ d₂) : d.Passes (text₁ ++ text₂) d₂ := by
  obtain ⟨hreturn₁, hmark₁, lines₁, hlines₁, h₁⟩ := h₁
  obtain ⟨hreturn₂, hmark₂, lines₂, hlines₂, h₂⟩ := h₂
  refine ⟨?_, ?_, lines₂ + lines₁, ?_, fun fuel rest => ?_⟩
  · rw [List.mem_append, not_or]
    exact ⟨hreturn₁, hreturn₂⟩
  · cases text₁ with
    | nil => exact hmark₂
    | cons c cs => exact hmark₁
  · rw [List.length_append, Nat.add_comm]
    exact Nat.add_le_add hlines₁ hlines₂
  · rw [← Nat.add_assoc, List.append_assoc, h₁, h₂]

/-- One line of text is one step of reading. -/
theorem Passes.of_step (hreturn : '\r' ∉ c :: cs) (hmark : c ≠ '\uFEFF')
    (h : ∀ fuel rest, readAll? (fuel + 1) d (c :: (cs ++ rest)) = readAll? fuel d₁ rest) : d.Passes (c :: cs) d₁ :=
  ⟨hreturn, fun heq => hmark (Option.some.inj heq), 1, Nat.le_add_left 1 cs.length, h⟩

theorem passes_blank (d : Draft) : d.Passes ['\n'] d :=
  .of_step (by decide) (by decide) fun _ _ => rfl

/-- A bracket that is not doubled begins a header. -/
theorem readAll?_header (h : cs.head? ≠ some '[') :
    readAll? (fuel + 1) d ('[' :: cs) = (d.readHeader? cs).bind fun x => readAll? fuel x.1 x.2 := by
  have hskip : skipGap ('[' :: cs) = '[' :: cs := List.dropWhile_cons_of_neg (by decide)
  rw [readAll?, hskip]
  split
  · next heq => cases heq
  · next heq => cases heq
  · next heq => cases heq
  · next heq =>
    cases heq
    exact absurd rfl h
  · next heq =>
    cases heq
    rfl
  · next _ hother => exact (hother cs rfl).elim

/-- A name begins a pair. -/
theorem readAll?_pair (h : isNameChar c = true) :
    readAll? (fuel + 1) d (c :: cs) = (d.readPair? (c :: cs)).bind fun x => readAll? fuel x.1 x.2 := by
  have hne {e : Char} {es : List Char} (heq : c :: cs = e :: es) (he : isNameChar e = false) : False :=
    ne_of_test h he (List.cons.inj heq).1
  rw [readAll?, skipGap_of_test h (by decide) (by decide)]
  split
  · next heq => cases heq
  · next heq => exact (hne heq (by decide)).elim
  · next heq => exact (hne heq (by decide)).elim
  · next heq => exact (hne heq (by decide)).elim
  · next heq => exact (hne heq (by decide)).elim
  · rfl

variable {name : String} {path opened : List String} {whole : Rows → Rows} {inner : Rows}

/-- What stands between the brackets of a header opens the table and takes up the rest of the line. -/
theorem readHeader?_line (hframe : Surrounds path whole) (hname : name ∉ keys inner)
    (hbare : ∀ part ∈ path ++ [name], Bare part) (hlength : path.length < nestingBound - 1) (rest : List Char) :
    readHeader? ⟨whole inner, opened⟩ (keyText (path ++ [name]) ++ ']' :: '\n' :: rest)
      = some (⟨whole (inner ++ [(name, .table .header [])]), path ++ [name]⟩, rest) := by
  have hne : path ++ [name] ≠ [] := List.append_ne_nil_of_right_ne_nil path (List.cons_ne_nil name [])
  have hfits : (path ++ [name]).length ≤ nestingBound - 1 := by
    rw [List.length_append]
    exact hlength
  have hkey : readKey? (nestingBound - 1) (keyText (path ++ [name]) ++ ']' :: '\n' :: rest)
      = some (path ++ [name], ']' :: '\n' :: rest) :=
    readKey?_keyText hne hbare hfits (by decide) rfl (by decide)
  rw [readHeader?, hkey]
  simp only [splitKey_concat, hframe.openTable hname]
  rfl

/-- **A header** opens its table at the end of the table above it. -/
theorem passes_header (hframe : Surrounds path whole) (hname : name ∉ keys inner)
    (hbare : ∀ part ∈ path ++ [name], Bare part) (hlength : path.length < nestingBound - 1) :
    Passes ⟨whole inner, opened⟩ (headerLine (path ++ [name]))
      ⟨whole (inner ++ [(name, .table .header [])]), path ++ [name]⟩ := by
  have hne : path ++ [name] ≠ [] := List.append_ne_nil_of_right_ne_nil path (List.cons_ne_nil name [])
  obtain ⟨c, cs, htext, hc⟩ := exists_cons_keyText hne hbare
  refine .of_step (return_notMem_headerLine hbare) (by decide) fun fuel rest => ?_
  have hsingle : (keyText (path ++ [name]) ++ ']' :: '\n' :: rest).head? ≠ some '[' := by
    rw [htext]
    exact fun heq => ne_of_test hc (by decide) (Option.some.inj heq)
  rw [List.append_assoc, List.cons_append, List.cons_append, List.nil_append, readAll?_header hsingle,
    readHeader?_line hframe hname hbare hlength, Option.bind_some]

/-- A pair takes up its line. -/
theorem readPair?_line (hframe : Surrounds path whole) (p : Pair) (hname : p.name ∉ keys inner) (rest : List Char) :
    readPair? ⟨whole inner, path⟩ (p.line ++ rest) = some (⟨whole (inner ++ [p.row]), path⟩, rest) := by
  have hline : p.line ++ rest = p.name.toList ++ ' ' :: '=' :: ' ' :: (p.chars ++ '\n' :: rest) := by
    simp [Pair.line, pairLine]
  have hkey : readKey? (nestingBound - 1) (p.name.toList ++ ' ' :: '=' :: ' ' :: (p.chars ++ '\n' :: rest))
      = some ([p.name], '=' :: ' ' :: (p.chars ++ '\n' :: rest)) :=
    readKey?_last p.bare (by decide) rfl (by decide)
  have hsplit : splitKey [p.name] = ([], p.name) := rfl
  have hend : endLine? ('\n' :: rest) = some rest := rfl
  have hgap : skipGap (' ' :: (p.chars ++ '\n' :: rest)) = p.chars ++ '\n' :: rest := p.readsAs.skip rest
  rw [hline, readPair?, hkey]
  simp only [hgap, p.readsAs.read, Option.bind_eq_bind, Option.bind_some, hend, hsplit, hframe.addPair hname]
  rfl

/-- **A pair** comes at the end of the open table. -/
theorem passes_pair (hframe : Surrounds path whole) (p : Pair) (hname : p.name ∉ keys inner) :
    Passes ⟨whole inner, path⟩ p.line ⟨whole (inner ++ [p.row]), path⟩ := by
  obtain ⟨c, cs, hline, hc⟩ : ∃ c cs, p.line = c :: cs ∧ isNameChar c = true := by
    obtain ⟨c, cs, hstart, hc⟩ := p.bare.exists_cons
    exact ⟨c, _, by rw [Pair.line, pairLine, hstart, List.cons_append], hc⟩
  have hreturn := p.return_notMem_line
  have hread := readPair?_line hframe p hname
  rw [hline] at hreturn hread ⊢
  refine .of_step hreturn (ne_of_test hc (by decide)) fun fuel rest => ?_
  rw [readAll?_pair hc, ← List.cons_append, hread, Option.bind_some]

/-- Pairs with different names come at the end of the open table, one after the other. -/
theorem passes_pairs (hframe : Surrounds path whole) (ps : List Pair) (hnodup : (ps.map Pair.name).Nodup)
    (hfree : ∀ p ∈ ps, p.name ∉ keys inner) :
    Passes ⟨whole inner, path⟩ (ps.flatMap Pair.line) ⟨whole (inner ++ ps.map Pair.row), path⟩ := by
  induction ps generalizing inner with
  | nil =>
    rw [List.map_nil, List.append_nil]
    exact .refl _
  | cons p ps ih =>
    obtain ⟨hp, hps⟩ := List.forall_mem_cons.mp hfree
    obtain ⟨hfirst, hnodup⟩ := List.nodup_cons.mp hnodup
    have hfree (q : Pair) (hq : q ∈ ps) : q.name ∉ keys (inner ++ [p.row]) := by
      rw [keys, List.map_append, List.mem_append, not_or]
      refine ⟨hps q hq, fun hmem => hfirst ?_⟩
      have heq : q.name = p.name := List.mem_singleton.mp hmem
      exact heq ▸ List.mem_map_of_mem hq
    have hrest := ih hnodup hfree
    rw [List.append_assoc, List.singleton_append] at hrest
    exact (passes_pair hframe p hp).trans hrest

/-- **A table** with its header and its pairs. -/
theorem passes_table (hframe : Surrounds path whole) (hname : name ∉ keys inner)
    (hbare : ∀ part ∈ path ++ [name], Bare part) (hlength : path.length < nestingBound - 1) (ps : List Pair)
    (hnodup : (ps.map Pair.name).Nodup) :
    Passes ⟨whole inner, opened⟩ (headerLine (path ++ [name]) ++ ps.flatMap Pair.line)
      ⟨whole (inner ++ [(name, .table .header (ps.map Pair.row))]), path ++ [name]⟩ :=
  (passes_header hframe hname hbare hlength).trans
    (passes_pairs (hframe.below hname .header) ps hnodup fun _ _ => List.not_mem_nil)

end Passes

end Draft

/-- Without carriage returns there is nothing to make plain. -/
theorem plainLines_of_notMem {cs : List Char} (h : '\r' ∉ cs) : plainLines cs = cs := by
  induction cs with
  | nil => rfl
  | cons c cs ih =>
    rw [List.mem_cons, not_or] at h
    rw [plainLines, ih h.2]
    exact fun ds heq _ => h.1 heq.symm

theorem dropMark_of_head? {cs : List Char} (h : cs.head? ≠ some '\uFEFF') : dropMark cs = cs := by
  rw [dropMark]
  rintro ds rfl
  exact h rfl

/-- **A text of such lines** is read as the document they build up. -/
theorem readDocument?_of_passes {text : String} {d : Draft} (h : Draft.Passes ⟨[], []⟩ text.toList d) :
    readDocument? text = some (.table (settingsOf d.rows)) := by
  obtain ⟨hreturn, hmark, lines, hlines, h⟩ := h
  obtain ⟨fuel, hfuel⟩ := Nat.exists_eq_add_of_le' hlines
  have hread := h (fuel + 1) []
  have hplain : plainLines (dropMark text.toList) = text.toList := by
    rw [dropMark_of_head? hmark, plainLines_of_notMem hreturn]
  rw [List.append_nil, Nat.add_right_comm, ← hfuel] at hread
  simp only [readDocument?, hplain, hread]
  rfl

end RepairCorpus.Toml
