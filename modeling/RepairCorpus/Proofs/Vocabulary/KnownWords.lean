import Mathlib.Data.List.Perm.Basic
import RepairCorpus.Proofs.Abstraction.Replacements
import RepairCorpus.Proofs.Text.Words
import RepairCorpus.Proofs.Vocabulary.TopWords
import RepairCorpus.Vocabulary.Builder

/-!
# Known words are resident words

Two passes look at the words of a tree.  Mining reads the word of each node, and a regular
expression has none; hiding looks identifiers and literals up in the vocabulary and decides by the
value and the parts of a regular expression what becomes of an unknown literal.  The two are written
apart, and `Form.disguise_ne_keep_iff_of_word` and `Form.disguise_ne_keep_iff_of_regex` are where
they meet: a construct with a word is hidden when its word is not known, unless it is a truth value
or null, and a regular expression is hidden when its token is not known.

What a vocabulary knows after mining are the residents of the miner (`contains_build`).  With room
for all words, every word of a mined tree is resident (`Miner.Exact.isResident_of_room`).
-/

namespace RepairCorpus

/-! ## Words and disguises -/

namespace Form

variable {α : Type}

/-- Whether a construct is a literal whose value is a truth value or null. -/
def isConstant : Form α → Bool
  | .literal (.bool _) _ _ => true
  | .literal .null _ _ => true
  | _ => false

/-- Whether a construct is a literal that has the parts of a regular expression or one for its
value. -/
def isRegex : Form α → Bool
  | .literal (.regex _) _ _ => true
  | .literal _ _ (some _) => true
  | _ => false

theorem isRegex_iff {form : Form α} : form.isRegex = true ↔
    ∃ value raw regex, form = .literal value raw regex ∧ form.word? = none := by
  cases form with
  | literal value raw regex => cases value <;> cases regex <;> simp [isRegex, word?]
  | _ => simp [isRegex]

/-- The word of a literal that has one is its token. -/
theorem eq_of_word?_literal {value : LiteralValue} {raw : String} {regex : Option Regex}
    {w : String} (h : (literal value raw regex : Form α).word? = some w) : w = literalToken raw := by
  cases regex with
  | some r => cases value <;> cases h
  | none =>
    cases value with
    | regex r => cases h
    | _ => exact (Option.some.inj h).symm

/-- A construct with a word is hidden when its word is not known, unless it is a truth value or
null. -/
theorem disguise_ne_keep_iff_of_word {form : Form α} {known : String → Bool} {w : String}
    (h : form.word? = some w) :
    form.disguise known ≠ .keep ↔ known w = false ∧ form.isConstant = false := by
  cases form with
  | identifier name =>
    obtain rfl : name = w := Option.some.inj h
    cases hknown : known name <;> simp [disguise, isConstant, hknown]
  | literal value raw regex =>
    obtain rfl := eq_of_word?_literal h
    cases regex with
    | some r => cases value <;> cases h
    | none =>
      cases value with
      | regex r => cases h
      | _ => cases hknown : known (literalToken raw) <;> simp [disguise, isConstant, hknown]
  | _ => cases h

/-- A regular expression is hidden when its token is not known. -/
theorem disguise_ne_keep_iff_of_regex {value : LiteralValue} {raw : String} {regex : Option Regex}
    {known : String → Bool} (h : (literal value raw regex : Form α).word? = none) :
    (literal value raw regex : Form α).disguise known ≠ .keep ↔ known (literalToken raw) = false := by
  cases hknown : known (literalToken raw) with
  | true => simp [disguise, hknown]
  | false =>
    cases regex with
    | some r => simp [disguise, hknown]
    | none =>
      cases value with
      | regex r => simp [disguise, hknown]
      | _ => cases h

end Form

/-! ## Words of trees -/

namespace Node

/-- Whether the names of all identifiers and the source texts of all literals of a tree have
characters. -/
def Spelled (n : Node) : Prop :=
  ∀ m ∈ n.nodes, m.form ≠ .identifier "" ∧ ∀ value regex, m.form ≠ .literal value "" regex

theorem Spelled.word_ne_empty {n m : Node} (h : n.Spelled) (hm : m ∈ n.nodes) :
    m.word? ≠ some "" := by
  obtain ⟨hname, hraw⟩ := h m hm
  obtain ⟨own, underlying, form⟩ := m
  intro hword
  cases form with
  | identifier name =>
    obtain rfl : name = "" := Option.some.inj hword
    exact hname rfl
  | literal value raw regex =>
    have htoken : "" = literalToken raw := Form.eq_of_word?_literal hword
    obtain rfl : raw = "" := Text.squeeze_eq_empty_iff.mp htoken.symm
    exact hraw value regex rfl
  | _ => cases hword

/-- The words of a tree are those of its nodes. -/
theorem words_perm (n : Node) : n.words.Perm (n.nodes.filterMap word?) := by
  induction n using Node.induction with
  | step own underlying form ih =>
    have hparts : ((form.children.map words).reverse.flatten).Perm
        (form.children.flatMap fun c => c.nodes.filterMap word?) := by
      refine (List.reverse_perm _).flatten.trans ?_
      rw [← List.flatMap_def]
      exact List.Perm.flatMap_left _ ih
    rw [words_mk, nodes_mk, ← List.singleton_append, List.filterMap_append, List.filterMap_flatMap]
    refine List.Perm.append (List.Perm.of_eq ?_) hparts
    show form.word?.toList = _
    cases h : form.word? <;> simp [word?, h]

theorem mem_words_iff {n : Node} {w : String} :
    w ∈ n.words ↔ ∃ m ∈ n.nodes, m.word? = some w := by
  rw [n.words_perm.mem_iff, List.mem_filterMap]

end Node

/-! ## Mining -/

namespace VocabularyBuilder

theorem miner_addTrees (b : VocabularyBuilder) (trees : List Node) :
    (trees.foldl addTree b).miner = b.miner.addAll (trees.flatMap Node.words) := by
  induction trees generalizing b with
  | nil => rfl
  | cons t trees ih =>
    rw [List.foldl_cons, ih, List.flatMap_cons, Miner.addAll, Miner.addAll, List.foldl_append]
    rfl

/-- What is known of the miner once some trees have been added to a new builder. -/
theorem exact_addTrees {size : Nat} (hsize : 1 ≤ size) (trees : List Node) :
    ∃ start, new size = .ok start ∧
      (trees.foldl addTree start).miner.Exact (trees.flatMap Node.words) ∧
      (trees.foldl addTree start).miner.capacity = size := by
  refine ⟨⟨⟨size, .empty, #[]⟩, 0⟩, ?_, ?_, ?_⟩
  · rw [new, Miner.new, if_neg (Nat.one_le_iff_ne_zero.mp hsize)]
    rfl
  · rw [miner_addTrees]
    exact (Miner.exact_of_no_words hsize).addAll _
  · rw [miner_addTrees]
    exact (Miner.intact_of_no_words hsize).capacity_addAll _

/-- **A vocabulary knows the residents of its miner.** -/
theorem contains_build {b : VocabularyBuilder} (h : b.miner.Linked) (w : String) :
    b.build.contains w = b.miner.isResident w := by
  rw [Bool.eq_iff_iff, h.isResident_iff, build, Vocabulary.contains_ofList, List.contains_iff_mem,
    topWords]
  exact (b.miner.ranking_perm.map Resident.word).mem_iff

end VocabularyBuilder

/-- With room for all words, all words are resident. -/
theorem Miner.Exact.isResident_of_room {m : Miner} {words : List String} {w : String}
    (h : m.Exact words) (hroom : (distinctWords words).length ≤ m.capacity) (hw : w ∈ words)
    (hne : w ≠ "") : m.isResident w = true := by
  have hlength := h.perm_distinctWords.length_eq
  rw [List.length_append, List.length_map, h.length_residents] at hlength
  have hnone : m.outsiders words = [] := List.eq_nil_of_length_eq_zero (by omega)
  have hmem := h.perm_distinctWords.mem_iff.mpr (mem_distinctWords.mpr ⟨hw, hne⟩)
  rw [hnone, List.append_nil] at hmem
  exact (h.intact.linked.isResident_iff w).mpr hmem

/-! ## Mining and hiding -/

namespace Node

section Hiding

variable {t m : Node} {p : Path} (v : Vocabulary) (unique : Bool) (counter : Nat)

theorem hidesAt_iff {known : String → Bool} (hm : t.at? p = some m) (hp : p ≠ []) :
    t.hidesAt known p = true ↔ m.form.disguise known ≠ .keep := by
  rw [hidesAt_eq_true_iff, hm]
  simp [hp]

theorem replaced_hide_iff_of_word {w : String} (hm : t.at? p = some m) (hp : p ≠ [])
    (hw : m.word? = some w) :
    Replaced t (t.hide v unique counter).tree p ↔
      v.contains w = false ∧ m.form.isConstant = false := by
  rw [replaced_hide_iff, hidesAt_iff hm hp]
  exact Form.disguise_ne_keep_iff_of_word hw

theorem replaced_hide_iff_of_regex {value : LiteralValue} {raw : String} {regex : Option Regex}
    (hm : t.at? p = some m) (hp : p ≠ []) (hform : m.form = .literal value raw regex)
    (hw : m.word? = none) :
    Replaced t (t.hide v unique counter).tree p ↔ v.contains (literalToken raw) = false := by
  have hwordless : (Form.literal value raw regex : Form Node).word? = none := hform ▸ hw
  rw [replaced_hide_iff, hidesAt_iff hm hp, hform]
  exact Form.disguise_ne_keep_iff_of_regex hwordless

/-- A node without a word that is no regular expression is kept. -/
theorem kept_hide_of_wordless (hm : t.at? p = some m) (hw : m.word? = none)
    (hregex : m.form.isRegex = false) : Kept t (t.hide v unique counter).tree p := by
  rw [kept_hide_iff t v unique counter p hm, Bool.eq_false_iff, Ne, hidesAt_eq_true_iff]
  rintro ⟨-, k, hk, hkeep⟩
  cases hm.symm.trans hk
  rw [← Bool.not_eq_true, Form.isRegex_iff] at hregex
  obtain ⟨own, underlying, form⟩ := m
  cases form with
  | identifier name => exact Option.some_ne_none name hw
  | literal value raw regex => exact hregex ⟨value, raw, regex, rfl, hw⟩
  | _ => exact hkeep rfl

theorem kept_hide_root (t : Node) : Kept t (t.hide v unique counter).tree [] :=
  (kept_hide_iff t v unique counter [] (at?_nil t)).mpr rfl

theorem replaced_or_kept_hide (hm : t.at? p = some m) :
    Replaced t (t.hide v unique counter).tree p ∨ Kept t (t.hide v unique counter).tree p := by
  rw [replaced_hide_iff, kept_hide_iff t v unique counter p hm]
  cases t.hidesAt v.contains p with
  | true => exact Or.inl rfl
  | false => exact Or.inr rfl

/-- If all words of a tree are known, only regular expressions are replaced. -/
theorem isRegex_of_replaced_hide (hknown : ∀ w ∈ t.words, w ≠ "" → v.contains w = true)
    (hspelled : t.Spelled) (hm : t.at? p = some m)
    (h : Replaced t (t.hide v unique counter).tree p) : m.form.isRegex = true := by
  cases hw : m.word? with
  | none =>
    by_contra hregex
    exact (kept_hide_of_wordless v unique counter hm hw
      (Bool.eq_false_iff.mpr hregex)).not_replaced h
  | some w =>
    have hnode : m ∈ t.nodes := mem_nodes_of_at? hm
    have hne : w ≠ "" := by
      rintro rfl
      exact hspelled.word_ne_empty hnode hw
    have hp : p ≠ [] := by
      rintro rfl
      exact (kept_hide_root v unique counter t).not_replaced h
    have hunknown := ((replaced_hide_iff_of_word v unique counter hm hp hw).mp h).1
    rw [hknown w (mem_words_iff.mpr ⟨m, hnode, hw⟩) hne] at hunknown
    cases hunknown

end Hiding

/-- **Mining and hiding agree about every word.**  Let a vocabulary be built from any trees, and let
unknown words be hidden in any tree, among those mined or not.  Each node is replaced or kept.  A
node below the root that has a word is replaced exactly when its word is no resident of the miner and
the node is no truth value and not null.  A literal below the root that has no word is replaced
exactly when its token is no resident.  The root and all other nodes are kept.

If there was room for all words mined, then in a mined tree whose names and literals are spelled
only regular expressions are replaced. -/
theorem hide_follows_residents {size : Nat} (hsize : 1 ≤ size) (trees : List Node) :
    ∃ start, VocabularyBuilder.new size = .ok start ∧
      let b := trees.foldl VocabularyBuilder.addTree start
      (∀ (t : Node) (unique : Bool) (counter : Nat) (p : Path) (m : Node), t.at? p = some m →
        let after := (t.hide b.build unique counter).tree
        (Replaced t after p ∨ Kept t after p) ∧
        (∀ w, p ≠ [] → m.word? = some w →
          (Replaced t after p ↔ b.miner.isResident w = false ∧ m.form.isConstant = false)) ∧
        (∀ value raw regex, p ≠ [] → m.form = .literal value raw regex → m.word? = none →
          (Replaced t after p ↔ b.miner.isResident (literalToken raw) = false)) ∧
        (p = [] ∨ m.word? = none ∧ m.kind ≠ .literal → Kept t after p)) ∧
      ((distinctWords (trees.flatMap Node.words)).length ≤ size →
        ∀ t ∈ trees, t.Spelled → ∀ (unique : Bool) (counter : Nat) (p : Path) (m : Node),
          t.at? p = some m → Replaced t (t.hide b.build unique counter).tree p →
            m.form.isRegex = true) := by
  obtain ⟨start, hstart, hexact, hcapacity⟩ := VocabularyBuilder.exact_addTrees hsize trees
  have hknown (w : String) := VocabularyBuilder.contains_build hexact.intact.linked w
  refine ⟨start, hstart, fun t unique counter p m hm => ?_, ?_⟩
  · refine ⟨replaced_or_kept_hide _ unique counter hm, fun w hp hw => ?_,
      fun value raw regex hp hform hw => ?_, fun hout => ?_⟩
    · rw [← hknown]
      exact replaced_hide_iff_of_word _ unique counter hm hp hw
    · rw [← hknown]
      exact replaced_hide_iff_of_regex _ unique counter hm hp hform hw
    · rcases hout with rfl | ⟨hw, hkind⟩
      · exact kept_hide_root _ unique counter t
      · refine kept_hide_of_wordless _ unique counter hm hw (Bool.eq_false_iff.mpr fun hregex => ?_)
        obtain ⟨value, raw, regex, hform, -⟩ := Form.isRegex_iff.mp hregex
        exact hkind (congrArg Form.kind hform)
  · intro hroom t ht hspelled unique counter p m hm h
    refine isRegex_of_replaced_hide _ unique counter (fun w hw hne => ?_) hspelled hm h
    have hmined : w ∈ trees.flatMap Node.words := List.mem_flatMap.mpr ⟨t, ht, hw⟩
    rw [hknown]
    exact hexact.isResident_of_room (hcapacity.symm ▸ hroom) hmined hne

/-- A call whose arguments are a regular expression and a truth value. -/
def matchedCall : Node :=
  untagged (.expressionStatement (untagged (.callExpression (untagged (.identifier "match"))
    [untagged (.literal (.regex ⟨none, none⟩) "/a+/" (some ⟨some "a+", none⟩)),
      untagged (.literal (.bool true) "true" none)])))

/-- With room for both words of the call, its name is kept, and so is the truth value; the regular
expression is replaced unless its token happens to be a word. -/
theorem hide_follows_residents_matchedCall : 1 ≤ 2 ∧ ∃ start, VocabularyBuilder.new 2 = .ok start ∧
    let b := [matchedCall].foldl VocabularyBuilder.addTree start
    let after := (matchedCall.hide b.build false 0).tree
    Kept matchedCall after [] ∧ Kept matchedCall after [0, 0] ∧ Kept matchedCall after [0, 2] ∧
      (Replaced matchedCall after [0, 1] ↔ b.miner.isResident "/a+/" = false) := by
  obtain ⟨start, hstart, hnodes, hregex⟩ :=
    hide_follows_residents (show 1 ≤ 2 by decide) [matchedCall]
  have hroom : (distinctWords ([matchedCall].flatMap Node.words)).length ≤ 2 := by decide
  have hspelled : matchedCall.Spelled := by
    intro m hm
    simp only [matchedCall, untagged, nodes_mk, Form.children, List.flatMap_cons, List.flatMap_nil,
      List.cons_append, List.nil_append, List.append_nil, List.mem_cons, List.not_mem_nil,
      or_false] at hm
    rcases hm with rfl | rfl | rfl | rfl | rfl <;> simp
  have honly := hregex hroom matchedCall List.mem_cons_self hspelled false 0
  have hkept (p : Path) (m : Node) (hm : matchedCall.at? p = some m)
      (hplain : m.form.isRegex = false) :
      Kept matchedCall (matchedCall.hide _ false 0).tree p :=
    (hnodes matchedCall false 0 p m hm).1.resolve_left fun h => by
      rw [honly p m hm h] at hplain
      cases hplain
  refine ⟨by decide, start, hstart, hkept [] _ rfl rfl, hkept [0, 0] _ rfl rfl,
    hkept [0, 2] _ rfl rfl, ?_⟩
  have htoken : literalToken "/a+/" = "/a+/" := by decide
  have hliteral := (hnodes matchedCall false 0 [0, 1] _ rfl).2.2.1 (.regex ⟨none, none⟩) "/a+/"
    (some ⟨some "a+", none⟩) (List.cons_ne_nil 0 [1]) rfl rfl
  rw [htoken] at hliteral
  exact hliteral

end Node

end RepairCorpus
