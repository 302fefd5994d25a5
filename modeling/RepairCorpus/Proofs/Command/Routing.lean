import RepairCorpus.Proofs.Command.Products
import RepairCorpus.Proofs.Text.Lines

/-!
# Files of a run

The tasks that write sequences write their products to files by category, bucket and role.  A file is
therefore a part of the list of all products, in the same order: by lines of the corpus, then by pairs of
a record, then by the order of what is made of a pair.  That the two sides of a pair are on lines with the
same number is true because both files are such parts and a pair has as many products in the one as in the
other.

* `fileProducts`: the products that belong to a file.
* `map_source_fileProducts`: the two sides of pairs stand side by side.
* `Routed`: the products are in their files, and nothing else has changed.
* `Command.succeeds_writeCorpus`: writing a corpus comes to that, whatever is made of a pair.
* `Command.Makes`: the tasks that write sequences, with what they make of a pair.
* `Command.Routes`: what such a task comes to, with the order of products and of buckets.
* `Command.runTask_routes`: **a run writes its products to their files, in order**.
-/

namespace RepairCorpus

open Files (Directory Location OutputAt EmptyAt)
open Files.Directory (Rewritten)
open Work (Succeeds)

/-! ## The products of a file -/

/-- The products of a corpus that belong to the file of a category, a bucket and a role. -/
def fileProducts (make : SlicePair → List PairSequence) (count : Nat) (lines : List String)
    (category : Category) (bucket : Nat) (role : Role) : List Product :=
  (products make lines).filter fun p =>
    p.sequence.category = category ∧ bucketOf count (projectsOf lines) p.project = bucket ∧
      p.sequence.role = role

/-- The line of a product in its file. -/
def Product.text (p : Product) : String := lineOf p.sequence.tokens

/-- The numbers of the line and the pair that a product comes from. -/
def Product.source (p : Product) : Nat × Nat := (p.line, p.pair)

variable {make : SlicePair → List PairSequence} {count : Nat} {lines : List String}
  {category : Category} {bucket : Nat} {role : Role}

/-- The lines of a file are those of its products. -/
theorem linesOf_products (make : SlicePair → List PairSequence) (count : Nat) (lines : List String)
    (category : Category) (bucket : Nat) (role : Role) :
    linesOf ⟨category, some bucket, role⟩
        ((products make lines).map (Product.addition count (projectsOf lines))) =
      (fileProducts make count lines category bucket role).map Product.text := by
  rw [linesOf, List.filter_map, List.map_map, fileProducts]
  refine congrArg (List.map _) (List.filter_congr fun p _ => ?_)
  simp [Product.addition]

/-- The files of a run are those that some product belongs to. -/
theorem mem_keysOf_products {f : SequenceKey} :
    f ∈ keysOf ((products make lines).map (Product.addition count (projectsOf lines))) ↔
      ∃ category bucket role, f = ⟨category, some bucket, role⟩ ∧
        fileProducts make count lines category bucket role ≠ [] := by
  constructor
  · intro hf
    obtain ⟨a, ha, rfl⟩ := List.mem_map.mp (List.mem_eraseDups.mp hf)
    obtain ⟨p, hp, rfl⟩ := List.mem_map.mp ha
    refine ⟨_, _, _, rfl, List.ne_nil_of_mem (List.mem_filter.mpr ⟨hp, ?_⟩)⟩
    simp
  · rintro ⟨category, bucket, role, rfl, hne⟩
    rw [mem_keysOf_iff, linesOf_products]
    exact fun hnil => hne (List.map_eq_nil_iff.mp hnil)

/-- A product comes from a pair of a record of the corpus, whose project it has. -/
theorem exists_of_mem_products {p : Product} (h : p ∈ products make lines) :
    ∃ line r pair, lines[p.line]? = some line ∧ Record.ofLine line = .ok r ∧ r.project = p.project ∧
      r.pairs[p.pair]? = some pair ∧ p.sequence ∈ make pair := by
  obtain ⟨⟨line, i⟩, hline, hp⟩ := List.mem_flatMap.mp h
  obtain ⟨r, hr, hp⟩ := List.mem_flatMap.mp hp
  obtain ⟨⟨pair, j⟩, hpair, hp⟩ := List.mem_flatMap.mp hp
  obtain ⟨s, hs, rfl⟩ := List.mem_map.mp hp
  refine ⟨line, r, pair, ?_, ?_, rfl, ?_, hs⟩
  · exact List.mk_mem_zipIdx_iff_getElem?.mp hline
  · have hrecord := Option.mem_toList.mp hr
    rw [recordOf?] at hrecord
    cases hread : Record.ofLine line with
    | error e =>
      rw [hread] at hrecord
      cases hrecord
    | ok r' =>
      rw [hread] at hrecord
      cases hrecord
      rfl
  · exact List.mk_mem_zipIdx_iff_getElem?.mp hpair

theorem project_mem_projectsOf {p : Product} (h : p ∈ products make lines) :
    p.project ∈ projectsOf lines := by
  obtain ⟨line, r, -, hline, hr, hproject, -⟩ := exists_of_mem_products h
  have hrecord : recordOf? line = some r := by
    rw [recordOf?, hr]
    rfl
  refine List.mem_map.mpr ⟨r, ?_, hproject⟩
  exact List.mem_filterMap.mpr ⟨line, List.mem_of_getElem? hline, hrecord⟩

/-! ## Two sides of a pair -/

/-- What is made of a pair has as many first sides as second sides in a category. -/
def Balanced (make : SlicePair → List PairSequence) : Prop :=
  ∀ p category, ((make p).filter fun s => s.category = category ∧ s.role = .buggy).length =
    ((make p).filter fun s => s.category = category ∧ s.role = .correct).length

theorem balanced_pairs {work : SlicePair → Except Error (Option SequencePair)} :
    Balanced fun p => madeOf SequencePair.sequences (work p) := by
  intro p category
  dsimp only
  rcases work p with e | _ | pair
  · rfl
  · rfl
  · by_cases h : pair.category = category
    · simp [madeOf, SequencePair.sequences, h]
    · simp [madeOf, SequencePair.sequences, h]

theorem balanced_mutantSets {work : SlicePair → Except Error (Option MutantSet)} :
    Balanced fun p => madeOf MutantSet.sequences (work p) := by
  intro p category
  dsimp only
  rcases work p with e | _ | set
  · rfl
  · rfl
  · simp [madeOf, MutantSet.sequences, List.filter_map, Function.comp_def]

/-- **The two sides of pairs stand side by side.** -/
theorem map_source_fileProducts (h : Balanced make) (count : Nat) (lines : List String)
    (category : Category) (bucket : Nat) :
    (fileProducts make count lines category bucket .buggy).map Product.source =
      (fileProducts make count lines category bucket .correct).map Product.source := by
  simp only [fileProducts, products, productsFrom, recordProducts, List.filter_flatMap,
    List.map_flatMap]
  refine List.flatMap_congr fun line _ => List.flatMap_congr fun r _ => List.flatMap_congr fun p _ => ?_
  simp only [List.filter_map, List.map_map, Function.comp_def, Product.source]
  rw [List.map_const', List.map_const']
  by_cases hbucket : bucketOf count (projectsOf lines) r.project = bucket
  · simp only [hbucket, true_and]
    rw [h p.1 category]
  · simp only [hbucket, false_and, and_false, decide_false, List.filter_false]

/-! ## Corpora -/

/-- The lines of a corpus with a text that are read. -/
def Corpus.limited (limit : Option Nat) (content : String) : List String :=
  match limit with
  | none => Corpus.recordLines content
  | some n => (Corpus.recordLines content).take n

/-- Lines without line breaks, none of them blank, are a corpus. -/
theorem Corpus.limited_unlines (hplain : ∀ l ∈ lines, Text.Plain l)
    (hblank : ∀ l ∈ lines, Text.isBlankText l = false) :
    Corpus.limited none (Text.unlines lines) = lines := by
  rw [Corpus.limited, Corpus.recordLines, Text.lines_unlines_of_plain hplain]
  refine List.filter_eq_self.mpr fun l hl => ?_
  rw [hblank l hl]
  rfl

variable {m : Type → Type} [Monad m] [LawfulMonad m] [Storage m] {ρ α : Type} [Hosted m ρ] {r : ρ}
  {d d' d₁ : Directory} {k : Location} {start path content : String}

theorem Corpus.succeeds_load {limit : Option Nat} (hread : d.read path = .ok content)
    (hlimit : limit ≠ some 0) :
    Succeeds (Corpus.load path limit : Work m (List String)) r d (Corpus.limited limit content) r d := by
  have hfile : d.hasFile path = true := by
    obtain ⟨c, hstatus, -⟩ := Directory.read_eq_ok_iff.mp hread
    rw [Directory.hasFile, hstatus]
  have hlines : Succeeds (Corpus.readLines path : Work m (List String)) r d
      (Corpus.recordLines content) r d := (Succeeds.read hread).bind (Succeeds.pure _ r d)
  rw [Corpus.load]
  refine Succeeds.hasFile.bind ?_
  rw [hfile, if_neg (by decide), if_neg hlimit]
  refine hlines.bind ?_
  cases limit with
  | none => exact Succeeds.pure _ r d
  | some n => exact Succeeds.pure _ r d

/-! ## Writing a corpus -/

/-- `Routed make count lines start k d d'` holds if `d'` is `d` but for the files with the products of a
corpus, which are in the directory at `k`. -/
structure Routed (make : SlicePair → List PairSequence) (count : Nat) (lines : List String)
    (start : String) (k : Location) (d d' : Directory) : Prop where
  filled : ∀ category bucket role, fileProducts make count lines category bucket role ≠ [] →
    d'.read (sequencePath start category (some bucket) role.extension) =
      .ok (Text.unlines ((fileProducts make count lines category bucket role).map Product.text))
  absent : ∀ category bucket role, fileProducts make count lines category bucket role = [] →
    d'.has (sequencePath start category (some bucket) role.extension) = false
  rewritten : Rewritten (fun l => ∃ category bucket role,
    fileProducts make count lines category bucket role ≠ [] ∧
      l = placeOf start k ⟨category, some bucket, role⟩) d d'

namespace Routed

variable {d₀ : Directory}

theorem locate (h : Routed make count lines start k d d') (hout : OutputAt d₀ start d k)
    (f : SequenceKey) : d'.locate (f.path start) = .ok (placeOf start k f) := by
  refine (Directory.locate_eq_ok_iff (f.filePath start)).mpr ⟨k, ?_, ?_, rfl⟩
  · exact h.rewritten.walk_iff.mpr hout.walk
  · exact (h.rewritten.directories k).mpr hout.directory

/-- Nothing is where a file would be that has no products. -/
theorem at?_eq_none (h : Routed make count lines start k d d') (hout : EmptyAt d₀ start d k)
    (hnil : fileProducts make count lines category bucket role = []) :
    d'.at? (placeOf start k ⟨category, some bucket, role⟩) = none := by
  rw [h.rewritten.others]
  · exact hout.empty _
  · rintro ⟨_, _, _, hne, heq⟩
    cases placeOf_inj heq
    exact hne hnil

/-- A file has the products that belong to it, on one line each if no token has a line break. -/
theorem lines_eq (h : Routed make count lines start k d₀ d')
    (hplain : ∀ p ∈ products make lines, ∀ t ∈ p.sequence.tokens, Text.Plain t) {text : String}
    (htext : d'.read (sequencePath start category (some bucket) role.extension) = .ok text) :
    Text.lines text = (fileProducts make count lines category bucket role).map Product.text := by
  by_cases hnil : fileProducts make count lines category bucket role = []
  · -- A file that is not there is not read.
    obtain ⟨content, hstatus, -⟩ := Directory.read_eq_ok_iff.mp htext
    have hhas := Directory.has_iff.mpr ⟨_, hstatus⟩
    rw [h.absent category bucket role hnil] at hhas
    cases hhas
  · rw [h.filled category bucket role hnil] at htext
    cases htext
    refine Text.lines_unlines_of_plain fun l hl => ?_
    obtain ⟨p, hp, rfl⟩ := List.mem_map.mp hl
    have hspace : Text.Plain " " := by decide
    exact Text.plain_intercalate hspace (hplain p (List.mem_of_mem_filter hp))

end Routed

namespace Command

variable {write : Nat → α → SinkWork m Nat} {sequences : α → List PairSequence}

/-- **Writing a corpus writes its products to their files.** -/
theorem succeeds_writeCorpus (hwrite : Adds write sequences)
    (work : SlicePair → Except Error (Option α)) (lines : List String) (count : Nat)
    (hout : EmptyAt d start d₁ k) :
    ∃ summary d', Succeeds (writeCorpus start count write (processLines (Record.eachPair work) lines))
        r d summary r d' ∧
      Routed (fun p => madeOf sequences (work p)) count lines start k d₁ d' := by
  obtain ⟨summary, hwork⟩ := writeOutcomes_eq hwrite (Buckets.new count) .zero
    (processLines (Record.eachPair work) lines)
  rw [additionsFrom_processLines work (Buckets.saw_new count) 0 lines, List.nil_append,
    ← products] at hwork
  have hfree : ∀ f, d₁.at? (placeOf start k f) = none := fun f => hout.empty _
  obtain ⟨d', hrun, hholds⟩ := Sink.succeeds_run (r := r) hwork hout.toOutputAt
    (fun a _ => by rw [hfree]; nofun)
  refine ⟨summary, d', hrun, ?_, ?_, ?_⟩
  · intro category bucket role hne
    have hread := hholds.read hout.walk hout.directory
      (mem_keysOf_products.mpr ⟨category, bucket, role, rfl, hne⟩)
    rwa [linesOf_products] at hread
  · intro category bucket role hnil
    refine hholds.has_eq_false (f := ⟨category, some bucket, role⟩) hout.walk hout.directory ?_ (hfree _)
    intro hmem
    obtain ⟨_, _, _, heq, hne⟩ := mem_keysOf_products.mp hmem
    cases heq
    exact hne hnil
  · refine hholds.rewritten.mono ?_
    rintro l ⟨f, hf, rfl⟩
    obtain ⟨category, bucket, role, rfl, hne⟩ := mem_keysOf_products.mp hf
    exact ⟨category, bucket, role, hne, rfl⟩

/-! ## Tasks -/

theorem succeeds_tell (common : CommonArguments) (notice : Notice) (told : List Notice) :
    ∃ told', Succeeds (tell common notice : Telling m Unit) (told, r) d () (told', r) d := by
  rw [tell]
  split
  next => exact ⟨told, Succeeds.pure () _ d⟩
  next => exact ⟨told ++ [notice], Succeeds.modify⟩

theorem succeeds_report (common : CommonArguments) (summary : Summary) (told : List Notice) :
    ∃ told', Succeeds (report common summary : Telling m Unit) (told, r) d () (told', r) d := by
  obtain ⟨told₁, hwrote⟩ := succeeds_tell (m := m) (r := r) (d := d) common
    (.wroteSequences summary.sequences summary.records) told
  rw [report]
  split
  next =>
    obtain ⟨told₂, hskipped⟩ := succeeds_tell (m := m) (r := r) (d := d) common
      (.skipped summary.malformed summary.failedPairs) told₁
    exact ⟨told₂, hwrote.bind hskipped⟩
  next => exact ⟨told₁, hwrote.bind (Succeeds.pure () _ d)⟩

variable {config : Config} {task : Task} {corpus : CorpusArguments}

/-- What all tasks that write sequences have in common: a corpus is read, written and reported. -/
theorem succeeds_task (common : CommonArguments)
    {write : Nat → α → SinkWork (StateT (List Notice) m) Nat} (hwrite : Adds write sequences)
    (work : SlicePair → Except Error (Option α)) (count : Nat)
    (hread : d.read corpus.code = .ok content) (hlimit : corpus.limit ≠ some 0)
    (hout : EmptyAt d start d₁ k) (told : List Notice) :
    ∃ told' d', Succeeds (do
        let lines ← Corpus.load corpus.code corpus.limit
        let summary ← writeCorpus start count write (processLines (Record.eachPair work) lines)
        report common summary : Telling m Unit) (told, r) d () (told', r) d' ∧
      Routed (fun p => madeOf sequences (work p)) count (Corpus.limited corpus.limit content) start k
        d₁ d' := by
  have hload : Succeeds (Corpus.load corpus.code corpus.limit :
      Work (StateT (List Notice) m) (List String)) (told, r) d
      (Corpus.limited corpus.limit content) (told, r) d := Corpus.succeeds_load hread hlimit
  obtain ⟨summary, d', hrun, hrouted⟩ := succeeds_writeCorpus (r := (told, r)) hwrite work
    (Corpus.limited corpus.limit content) count hout
  obtain ⟨told', hreport⟩ := succeeds_report (m := m) (r := r) (d := d') common summary told
  exact ⟨told', d', hload.bind (hrun.bind hreport), hrouted⟩

/-- `Makes config d task corpus start make` holds if a task writes sequences to the files whose paths
begin with `start`, and `make` says which ones it makes of a pair of its corpus. -/
inductive Makes (config : Config) (d : Directory) :
    Task → CorpusArguments → String → (SlicePair → List PairSequence) → Prop
  | sequences (corpus : CorpusArguments) (start : String) :
    Makes config d (.sequences corpus start) corpus start annotatedSequences
  | abstract (corpus : CorpusArguments) (start : String) :
    Makes config d (.abstract corpus start none) corpus start
      (abstractedSequences config.abstraction none)
  | abstractKnown (corpus : CorpusArguments) (start path text : String) (h : d.read path = .ok text) :
    Makes config d (.abstract corpus start (some path)) corpus start
      (abstractedSequences config.abstraction (some (Vocabulary.parse text)))
  | mutants (corpus : CorpusArguments) (start : String) :
    Makes config d (.mutants corpus start) corpus start mutantSequences

theorem Makes.balanced (h : Makes config d task corpus start make) : Balanced make := by
  cases h with
  | sequences => exact balanced_pairs
  | abstract => exact balanced_pairs
  | abstractKnown => exact balanced_pairs
  | mutants => exact balanced_mutantSets

theorem Makes.succeeds (h : Makes config d task corpus start make) (common : CommonArguments)
    (hread : d.read corpus.code = .ok content) (hlimit : corpus.limit ≠ some 0)
    (hout : EmptyAt d start d₁ k) (told : List Notice) :
    ∃ told' d', Succeeds (runTask common config task : Telling m Unit) (told, r) d () (told', r) d' ∧
      Routed make config.buckets (Corpus.limited corpus.limit content) start k d₁ d' := by
  cases h with
  | sequences =>
    exact succeeds_task common adds_writePair (fun p => p.annotated.map some) config.buckets hread hlimit
      hout told
  | abstract =>
    obtain ⟨told₁, htell⟩ := succeeds_tell (m := m) (r := r) (d := d) common .noVocabulary told
    obtain ⟨told', d', hrun, hrouted⟩ := succeeds_task (m := m) (r := r) common adds_writePair
      (fun p => p.abstracted config.abstraction none) config.buckets hread hlimit hout told₁
    exact ⟨told', d', htell.bind ((Succeeds.pure none _ d).bind hrun), hrouted⟩
  | abstractKnown _ _ path text hvocabulary =>
    obtain ⟨told', d', hrun, hrouted⟩ := succeeds_task (m := m) (r := r) common adds_writePair
      (fun p => p.abstracted config.abstraction (some (Vocabulary.parse text))) config.buckets hread
      hlimit hout told
    have hknown : Succeeds (some <$> Vocabulary.load path : Work (StateT (List Notice) m) _) (told, r) d
        (some (Vocabulary.parse text)) (told, r) d := by
      rw [← bind_pure_comp]
      exact Succeeds.bind ((Succeeds.read hvocabulary).bind (Succeeds.pure _ _ d)) (Succeeds.pure _ _ d)
    exact ⟨told', d', hknown.bind hrun, hrouted⟩
  | mutants =>
    exact succeeds_task common adds_writeMutantSet (fun p => p.mutants.map some) config.buckets hread
      hlimit hout told

/-- The mutants of a pair are in the order of the candidates. -/
theorem mutants_of_candidates {p : SlicePair} {set : MutantSet} (h : p.mutants = .ok set) :
    ∃ after outcomes, p.requiredAfter = .ok after ∧ after.candidates.mapM after.outcome = .ok outcomes ∧
      set.mutants = outcomes.filterMap Mutant.tokens? := by
  rw [SlicePair.mutants] at h
  obtain ⟨after, hafter, h⟩ := Except.bind_eq_ok_iff.mp h
  obtain ⟨unmutated, -, h⟩ := Except.bind_eq_ok_iff.mp h
  obtain ⟨mutants, hmutants, h⟩ := Except.bind_eq_ok_iff.mp h
  rw [Node.mutantSequences, MutantRun.sequencesFrom_eq] at hmutants
  obtain ⟨outcomes, houtcomes, rfl⟩ := Except.map_eq_ok_iff.mp hmutants
  cases h
  exact ⟨after, outcomes, hafter, houtcomes, rfl⟩

/-- `Routes make count lines start k d d'` holds if `d'` is what a run makes of `d` that writes the products
of a corpus. -/
structure Routes (make : SlicePair → List PairSequence) (count : Nat) (lines : List String)
    (start : String) (k : Location) (d d' : Directory) : Prop where
  routed : Routed make count lines start k d d'
  /-- A file has the products that belong to it, on one line each. -/
  texts : ∀ category bucket role text,
    d'.read (sequencePath start category (some bucket) role.extension) = .ok text →
      Text.lines text = (fileProducts make count lines category bucket role).map Product.text
  /-- The bucket of a project is its place in the order of first sight among the records, modulo the number
  of buckets, whatever is made of the pairs. -/
  bucket : ∀ project ∈ projectsOf lines,
    finalBucket? count lines project = some (bucketOf count (projectsOf lines) project) ∧
      bucketOf count (projectsOf lines) project = (projectsOf lines).eraseDups.idxOf project % count
  /-- A product is made of a pair of a record of the corpus. -/
  source : ∀ p ∈ products make lines, ∃ line r pair, lines[p.line]? = some line ∧
    Record.ofLine line = .ok r ∧ r.project = p.project ∧ r.pairs[p.pair]? = some pair ∧
      p.sequence ∈ make pair
  /-- The files of the two sides of pairs have products of the same pairs on the same lines. -/
  aligned : ∀ category bucket,
    (fileProducts make count lines category bucket .buggy).map Product.source =
      (fileProducts make count lines category bucket .correct).map Product.source
  /-- The mutants of a pair are in the order of the candidates. -/
  candidates : ∀ p set, SlicePair.mutants p = .ok set → ∃ after outcomes, p.requiredAfter = .ok after ∧
    after.candidates.mapM after.outcome = .ok outcomes ∧
      set.mutants = outcomes.filterMap Mutant.tokens?

/-- **A run writes its products to their files, in order**: by record, then by pair, and the mutants of a
pair by candidate. -/
theorem runTask_routes (common : CommonArguments) (told : List Notice)
    (hmakes : Makes config d task corpus start make) (hread : d.read corpus.code = .ok content)
    (hlimit : corpus.limit ≠ some 0) (hlines : lines = Corpus.limited corpus.limit content)
    (hout : EmptyAt d start d₁ k)
    (hplain : ∀ p ∈ products make lines, ∀ t ∈ p.sequence.tokens, Text.Plain t) :
    ∃ notices d',
      ((ExceptT.run (runTask common config task : Telling (StateM Directory) Unit)).run told).run d =
        ((.ok (), notices), d') ∧
      Routes make config.buckets lines start k d₁ d' := by
  obtain ⟨notices, d', hrun, hrouted⟩ := hmakes.succeeds (m := StateM Directory) (r := ()) common hread
    hlimit hout told
  rw [← hlines] at hrouted
  refine ⟨notices, d', hrun.run_state, ?_⟩
  exact {
    routed := hrouted
    texts := fun _ _ _ _ => hrouted.lines_eq hplain
    bucket := fun project hproject => by
      refine ⟨Buckets.bucket?_seeAll hproject, ?_⟩
      rw [bucketOf, Nat.max_eq_left config.buckets_pos]
    source := fun _ => exists_of_mem_products
    aligned := map_source_fileProducts hmakes.balanced _ _
    candidates := fun _ _ => mutants_of_candidates }

/-- The line of a record with one pair, whose tree after the commit is a name that has been inserted. -/
def nameLine (project name : String) : String :=
  "\x7b\"projectID\":\"" ++ project ++ "\",\"sliceChangePair\":[\x7b\"after-ast\":"
    ++ "\x7b\"type\":\"Identifier\",\"change-noprop\":\"INSERTED\",\"name\":\"" ++ name
    ++ "\"\x7d\x7d]\x7d"

/-- Its document. -/
def nameDocument (project name : String) : Json :=
  .object [("projectID", .string project), ("sliceChangePair", .array [.object [("after-ast",
    .object [("type", .string "Identifier"), ("change-noprop", .string "INSERTED"),
      ("name", .string name)])]])]

/-- The record itself. -/
def nameRecord (project name : String) : Record :=
  ⟨project, "", "", [⟨none, none, none,
    some (.object [("change-noprop", .string "INSERTED"), ("name", .string name),
      ("type", .string "Identifier")]), .other, []⟩]⟩

theorem ofLine_nameLine {project name : String}
    (h : Record.document (some Json.nestingLimit) (nameLine project name) =
      ⟨nameDocument project name, true⟩) :
    Record.ofLine (nameLine project name) = .ok (nameRecord project name) := by
  rw [Record.ofLine, h]
  rfl

/-- Records of two projects with a line between them that is none. -/
def twoProjects : List String := [nameLine "p" "x", "?", nameLine "q" "y"]

set_option maxRecDepth 4000 in
theorem ofLine_twoProjects : Record.ofLine (nameLine "p" "x") = .ok (nameRecord "p" "x") ∧
    Record.ofLine "?" = .error unreadable ∧
      Record.ofLine (nameLine "q" "y") = .ok (nameRecord "q" "y") :=
  ⟨ofLine_nameLine rfl, rfl, ofLine_nameLine rfl⟩

theorem recordOf?_twoProjects : recordOf? (nameLine "p" "x") = some (nameRecord "p" "x") ∧
    recordOf? "?" = none ∧ recordOf? (nameLine "q" "y") = some (nameRecord "q" "y") := by
  obtain ⟨hp, hnone, hq⟩ := ofLine_twoProjects
  rw [recordOf?, recordOf?, recordOf?, hp, hnone, hq]
  exact ⟨rfl, rfl, rfl⟩

theorem products_twoProjects (make : SlicePair → List PairSequence) : products make twoProjects =
    recordProducts make 0 (nameRecord "p" "x") ++ recordProducts make 2 (nameRecord "q" "y") := by
  obtain ⟨hp, hnone, hq⟩ := recordOf?_twoProjects
  simp only [products, productsFrom, twoProjects, List.zipIdx_cons, List.zipIdx_nil, List.flatMap_cons,
    List.flatMap_nil, hp, hnone, hq, Option.toList_some, Option.toList_none, List.append_nil,
    List.nil_append, Nat.zero_add]

theorem projectsOf_twoProjects : projectsOf twoProjects = ["p", "q"] := by
  obtain ⟨hp, hnone, hq⟩ := recordOf?_twoProjects
  rw [projectsOf, twoProjects, List.filterMap_cons_some hp, List.filterMap_cons_none hnone,
    List.filterMap_cons_some hq]
  rfl

/-- A corpus beside an empty directory. -/
def twoProjectsDirectory : Directory :=
  ⟨[(["corpus"], .file (.text (Text.unlines twoProjects))), (["out"], .directory)]⟩

set_option maxRecDepth 4000 in
/-- The line that is no record has no part in what is written. -/
theorem runTask_routes_twoProjects :
    ∃ notices d', ((ExceptT.run (runTask ⟨false, true, none⟩ .standard
        (.sequences ⟨"corpus", none⟩ "out/seq") : Telling (StateM Directory) Unit)).run []).run
          twoProjectsDirectory = ((.ok (), notices), d') ∧
      d'.read "out/seq-nominal0.buggy" = .ok "\n" ∧
      d'.read "out/seq-nominal0.correct" = .ok "~INSERTED_START~ x ~INSERTED_END~\n" ∧
      d'.read "out/seq-nominal1.correct" = .ok "~INSERTED_START~ y ~INSERTED_END~\n" ∧
      d'.has "out/seq-nominal2.correct" = false := by
  have hproducts : products annotatedSequences twoProjects =
      [⟨0, 0, "p", ⟨.nominal, .buggy, []⟩⟩,
        ⟨0, 0, "p", ⟨.nominal, .correct, ["~INSERTED_START~", "x", "~INSERTED_END~"]⟩⟩,
        ⟨2, 0, "q", ⟨.nominal, .buggy, []⟩⟩,
        ⟨2, 0, "q", ⟨.nominal, .correct, ["~INSERTED_START~", "y", "~INSERTED_END~"]⟩⟩] := by
    rw [products_twoProjects]
    rfl
  have hempty : EmptyAt twoProjectsDirectory "out/seq" twoProjectsDirectory ["out"] := by
    refine ⟨OutputAt.of_walk (by decide) (by decide), fun name => ?_⟩
    simp [twoProjectsDirectory, Directory.at?, List.lookup_cons]
  have hplain : ∀ p ∈ products annotatedSequences twoProjects, ∀ t ∈ p.sequence.tokens,
      Text.Plain t := by
    rw [hproducts]
    decide
  have hmakes : Makes .standard twoProjectsDirectory (.sequences ⟨"corpus", none⟩ "out/seq")
      ⟨"corpus", none⟩ "out/seq" annotatedSequences := .sequences _ _
  have hread : twoProjectsDirectory.read "corpus" = .ok (Text.unlines twoProjects) := rfl
  have hlines : twoProjects = Corpus.limited none (Text.unlines twoProjects) :=
    (Corpus.limited_unlines (by decide) (by decide)).symm
  obtain ⟨notices, d', hrun, hroutes⟩ := runTask_routes ⟨false, true, none⟩ [] hmakes hread (by decide)
    hlines hempty hplain
  have hfilled (bucket : Nat) (role : Role) := hroutes.routed.filled .nominal bucket role
  have habsent := hroutes.routed.absent .nominal 2 .correct
  simp only [fileProducts, hproducts, projectsOf_twoProjects] at hfilled habsent
  exact ⟨notices, d', hrun, hfilled 0 .buggy (by decide), hfilled 0 .correct (by decide),
    hfilled 1 .correct (by decide), habsent (by decide)⟩

end Command

end RepairCorpus
