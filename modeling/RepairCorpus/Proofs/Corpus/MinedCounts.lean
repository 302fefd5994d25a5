import RepairCorpus.Corpus.Outcome
import RepairCorpus.Proofs.Vocabulary.KnownWords

/-!
# Counts of a mined corpus

Mining goes through records, through the pairs of a record, through the nodes of a tree and into a
trie, and at each of these places something could be read twice or passed over.  What it comes to is
said without any of them: the trees that are read are those of the pairs that repair a mutant, and the
count of a word is the number of their nodes with that word.

A pair fails if there is no tree after the commit or if it cannot be read; such a pair leaves no trace
but in the number of failures.

* `VocabularyBuilder.addRecords_eq`: mining records is reading some trees.
* `Miner.Exact.count?_eq`: the count of a word is its number of occurrences.
* `VocabularyBuilder.addRecords_counts`: **mining counts the corpus**.
-/

namespace RepairCorpus

/-! ## Words of nodes -/

/-- The number of nodes of some trees that have a word. -/
def wordCount (trees : List Node) (w : String) : Nat :=
  (trees.flatMap Node.nodes).countP fun n => n.word? = some w

theorem count_words (trees : List Node) (w : String) :
    (trees.flatMap Node.words).count w = wordCount trees w := by
  have hperm : (trees.flatMap Node.words).Perm ((trees.flatMap Node.nodes).filterMap Node.word?) := by
    rw [List.filterMap_flatMap]
    exact List.Perm.flatMap_left _ fun n _ => n.words_perm
  rw [hperm.count_eq, wordCount, List.count_filterMap]
  refine List.countP_congr fun n _ => ?_
  simp

/-! ## Pairs that are mined -/

namespace SlicePair

/-- The tree after the commit, if there is one and it can be read. -/
def afterNode? (p : SlicePair) : Option Node := p.afterTree.bind fun v => (Node.ofJson v).toOption

theorem afterNode?_eq (p : SlicePair) : p.afterNode? = p.requiredAfter.toOption := by
  rw [afterNode?, requiredAfter]
  cases p.afterTree <;> rfl

/-- What keeps a tree from being mined. -/
theorem isNone_afterNode?_iff (p : SlicePair) : p.afterNode?.isNone = true ↔
    p.afterTree = none ∨ p.afterTree = some .null ∨
      ∃ v e, p.afterTree = some v ∧ Node.ofJson v = .error e := by
  rw [afterNode?, Option.isNone_iff_eq_none]
  cases htree : p.afterTree with
  | none => exact iff_of_true rfl (Or.inl rfl)
  | some v =>
    cases hread : Node.ofJson v with
    | error e =>
      refine iff_of_true ?_ (Or.inr (Or.inr ⟨v, e, rfl, hread⟩))
      rw [Option.bind_some, hread]
      rfl
    | ok n =>
      rw [Option.bind_some, hread]
      refine iff_of_false nofun ?_
      rintro (h | h | ⟨w, e, h, herror⟩)
      · cases h
      · cases h
        cases hread
      · cases h
        rw [hread] at herror
        cases herror

end SlicePair

/-- The pairs of some records that repair a mutant. -/
def mutantRepairs (rs : List Record) : List SlicePair :=
  (rs.flatMap Record.pairs).filter fun p => p.type = .mutantRepair

/-- The trees that are mined from some records. -/
def minedTrees (rs : List Record) : List Node := (mutantRepairs rs).filterMap SlicePair.afterNode?

/-- The number of pairs of some records that repair a mutant and have no tree that can be mined. -/
def failedRepairs (rs : List Record) : Nat := (mutantRepairs rs).countP fun p => p.afterNode?.isNone

/-! ## Mining records -/

namespace VocabularyBuilder

variable {b : VocabularyBuilder}

/-- Mines records one after the other and adds up the numbers of pairs that failed. -/
def addRecords (b : VocabularyBuilder) (rs : List Record) : VocabularyBuilder × Nat :=
  rs.foldl (fun mined r => ((mined.1.addRecord r).1, mined.2 + (mined.1.addRecord r).2)) (b, 0)

/-- **Mining a record is reading some trees.** -/
theorem addRecord_eq (b : VocabularyBuilder) (r : Record) :
    b.addRecord r = ((minedTrees [r]).foldl addTree b, failedRepairs [r]) := by
  rw [addRecord, minedTrees, failedRepairs, mutantRepairs, List.flatMap_singleton]
  generalize r.pairs.filter (fun p => p.type = .mutantRepair) = ps
  suffices hfrom : ∀ failures, ps.foldl _ (b, failures) = ((ps.filterMap SlicePair.afterNode?).foldl addTree b,
      failures + ps.countP fun p => p.afterNode?.isNone) by
    rw [hfrom, Nat.zero_add]
  induction ps generalizing b with
  | nil => exact fun _ => rfl
  | cons p ps ih =>
    intro failures
    rw [List.foldl_cons]
    cases hread : p.requiredAfter with
    | ok after =>
      have hnode : p.afterNode? = some after := by rw [p.afterNode?_eq, hread]; rfl
      dsimp only
      rw [ih, List.filterMap_cons_some hnode, List.countP_cons_of_neg (by simp [hnode])]
      rfl
    | error e =>
      have hnode : p.afterNode? = none := by rw [p.afterNode?_eq, hread]; rfl
      dsimp only
      rw [ih, List.filterMap_cons_none hnode, List.countP_cons_of_pos (by simp [hnode]),
        Nat.add_right_comm, Nat.add_assoc]

theorem mutantRepairs_cons (r : Record) (rs : List Record) :
    mutantRepairs (r :: rs) = mutantRepairs [r] ++ mutantRepairs rs := by
  rw [mutantRepairs, mutantRepairs, mutantRepairs, List.flatMap_cons, List.flatMap_singleton,
    List.filter_append]

/-- **Mining records is reading some trees.** -/
theorem addRecords_eq (b : VocabularyBuilder) (rs : List Record) :
    b.addRecords rs = ((minedTrees rs).foldl addTree b, failedRepairs rs) := by
  have hfrom (failures : Nat) :
      rs.foldl (fun mined r => ((mined.1.addRecord r).1, mined.2 + (mined.1.addRecord r).2)) (b, failures) =
        ((minedTrees rs).foldl addTree b, failures + failedRepairs rs) := by
    induction rs generalizing b failures with
    | nil => rfl
    | cons r rs ih =>
      rw [List.foldl_cons, addRecord_eq, ih]
      simp only [minedTrees, failedRepairs, mutantRepairs_cons r rs, List.filterMap_append,
        List.foldl_append, List.countP_append, Nat.add_assoc]
  rw [addRecords, hfrom, Nat.zero_add]

theorem trees_addTrees (b : VocabularyBuilder) (trees : List Node) :
    (trees.foldl addTree b).trees = b.trees + trees.length := by
  induction trees generalizing b with
  | nil => rfl
  | cons t trees ih =>
    rw [List.foldl_cons, ih, List.length_cons]
    show b.trees + 1 + trees.length = _
    omega

end VocabularyBuilder

/-! ## Counts -/

/-- The count of a word is its number of occurrences among the words read. -/
theorem Miner.Exact.count?_eq {m : Miner} {words : List String} (h : m.Exact words) {w : String}
    (hw : w ≠ "") : m.count? w = if words.count w = 0 then none else some (words.count w) := by
  rw [count?, h.counted w hw]
  split
  next hzero => rw [if_pos hzero]
  next hzero => rw [if_neg hzero]

theorem Miner.count?_empty_word (m : Miner) : m.count? "" = none := by
  rw [count?, Trie.markOf_empty_word]
  rfl

/-- Words that are read in another order have the same counts. -/
theorem Miner.Exact.count?_congr {m m' : Miner} {words words' : List String} (h : m.Exact words)
    (h' : m'.Exact words') (hperm : words'.Perm words) (w : String) : m'.count? w = m.count? w := by
  by_cases hw : w = ""
  · rw [hw, count?_empty_word, count?_empty_word]
  · rw [h.count?_eq hw, h'.count?_eq hw, hperm.count_eq]

theorem minedTrees_perm {rs rs' : List Record}
    (h : (rs'.flatMap Record.pairs).Perm (rs.flatMap Record.pairs)) :
    (minedTrees rs').Perm (minedTrees rs) ∧ failedRepairs rs' = failedRepairs rs :=
  ⟨(h.filter _).filterMap _, (h.filter _).countP_eq _⟩

/-- **Mining counts the corpus.**  Let records be mined into a new builder of any size.  The trees
that are read are those of the pairs that repair a mutant, in order, so that other pairs and pairs
that fail change nothing.  The count of a word is the number of nodes in these trees that have it, and
there is none if that number is zero.  The failures are the pairs that repair a mutant and have no
tree after the commit, or null, or one that cannot be read.  None of this depends on the order of the
records, of the pairs or of the words of a tree. -/
theorem VocabularyBuilder.addRecords_counts {size : Nat} (hsize : 1 ≤ size) (rs : List Record) :
    ∃ start, VocabularyBuilder.new size = .ok start ∧
      let b := (start.addRecords rs).1
      b = (minedTrees rs).foldl addTree start ∧
      b.trees = (minedTrees rs).length ∧
      (start.addRecords rs).2 = failedRepairs rs ∧
      (∀ p : SlicePair, p.afterNode?.isNone = true ↔
        p.afterTree = none ∨ p.afterTree = some .null ∨
          ∃ v e, p.afterTree = some v ∧ Node.ofJson v = .error e) ∧
      (∀ w, w ≠ "" → b.miner.count? w =
        if wordCount (minedTrees rs) w = 0 then none else some (wordCount (minedTrees rs) w)) ∧
      (∀ rs', (rs'.flatMap Record.pairs).Perm (rs.flatMap Record.pairs) →
        (start.addRecords rs').1.trees = b.trees ∧
          (start.addRecords rs').2 = (start.addRecords rs).2 ∧
          ∀ w, (start.addRecords rs').1.miner.count? w = b.miner.count? w) ∧
      ∀ words : List String, words.Perm ((minedTrees rs).flatMap Node.words) →
        ∀ w, (start.miner.addAll words).count? w = b.miner.count? w := by
  have hstart : VocabularyBuilder.new size = .ok ⟨⟨size, .empty, #[]⟩, 0⟩ := by
    rw [new, Miner.new, if_neg (Nat.one_le_iff_ne_zero.mp hsize)]
    rfl
  have hexact (words : List String) : (Miner.addAll ⟨size, .empty, #[]⟩ words).Exact words :=
    (Miner.exact_of_no_words hsize).addAll words
  have hminer (rs : List Record) : (addRecords ⟨⟨size, .empty, #[]⟩, 0⟩ rs).1.miner =
      Miner.addAll ⟨size, .empty, #[]⟩ ((minedTrees rs).flatMap Node.words) := by
    rw [addRecords_eq, miner_addTrees]
  have htrees (rs : List Record) : (addRecords ⟨⟨size, .empty, #[]⟩, 0⟩ rs).1.trees =
      (minedTrees rs).length := by
    rw [addRecords_eq, trees_addTrees, Nat.zero_add]
  refine ⟨_, hstart, ?_, htrees rs, ?_, SlicePair.isNone_afterNode?_iff, fun w hw => ?_,
    fun rs' hperm => ⟨?_, ?_, fun w => ?_⟩, fun words hperm w => ?_⟩
  · rw [addRecords_eq]
  · rw [addRecords_eq]
  · rw [hminer, (hexact _).count?_eq hw, count_words]
  · rw [htrees, htrees, (minedTrees_perm hperm).1.length_eq]
  · rw [addRecords_eq, addRecords_eq, (minedTrees_perm hperm).2]
  · rw [hminer, hminer]
    exact (hexact _).count?_congr (hexact _) ((minedTrees_perm hperm).1.flatMap_right _) w
  · rw [hminer]
    exact (hexact _).count?_congr (hexact _) hperm w

/-- A call that names `x` twice. -/
def callDocument : Json :=
  let name (s : String) : Json := .object [("type", .string "Identifier"), ("name", .string s)]
  .object [("type", .string "CallExpression"), ("callee", name "run"),
    ("arguments", .array [name "x", name "x"])]

/-- Two files of a project.  The mutant of the first one is repaired and there is a nominal pair, of
the second one only the state before the commit is known. -/
def callRecords : List Record :=
  let pair (before after : Option Json) (type : PairType) : SlicePair :=
    ⟨none, none, before, after, type, []⟩
  [⟨"p", "", "run.js", [pair none (some callDocument) .mutantRepair,
      pair none (some callDocument) .nominal]⟩,
    ⟨"p", "", "stop.js", [pair (some callDocument) none .mutantRepair]⟩]

/-- Only the first of the three trees counts. -/
theorem callRecords_counts : 1 ≤ 10 ∧ ∃ start, VocabularyBuilder.new 10 = .ok start ∧
    (start.addRecords callRecords).1.trees = 1 ∧ (start.addRecords callRecords).2 = 1 ∧
      (start.addRecords callRecords).1.miner.count? "x" = some 2 ∧
      (start.addRecords callRecords).1.miner.count? "y" = none := by
  obtain ⟨start, hstart, -, htrees, hfailures, -, hcount, -⟩ :=
    VocabularyBuilder.addRecords_counts (by decide : 1 ≤ 10) callRecords
  refine ⟨by decide, start, hstart, htrees, hfailures, ?_, ?_⟩
  · rw [hcount "x" (by decide)]
    rfl
  · rw [hcount "y" (by decide)]
    rfl

end RepairCorpus
