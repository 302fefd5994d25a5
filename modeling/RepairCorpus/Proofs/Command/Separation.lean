import RepairCorpus.Proofs.Command.Routing
import RepairCorpus.Proofs.Corpus.Splits

/-!
# Projects on the two sides of a fold

A corpus is written to files of buckets, and folds are made of these files by somebody who knows nothing of
projects.  That no project is on both sides of a fold is a statement about lines that cannot be told from
the lines themselves, for two projects may well have a line in common.  So every line that is read back is
traced to the product that it was written for.  The traces go through sifting and splitting with the lines,
and nothing in between looks at them.

A product may be read back as several lines, if one of its tokens has a line break.  Then all of them are
traced to it.

* `TracedLine`, `runTraces`: the lines that folds are made of, with their products.
* `map_sourceLine_runTraces`: without the products they are the lines that folds are made of.
* `Separate`: the two sides of a fold have lines of different projects.
* `sourcesAt_of_routed`: what a run has written is what is read for folds.
* `Command.folds_separate_projects`: **no project has lines on both sides of a fold**.
-/

namespace RepairCorpus

open Files (Directory Location EmptyAt)
open Files.Directory (Rewritten)
open Work (Runs PlaceAt)

/-! ## Traces -/

/-- A line that is read from a file of sequences, with the product that it was written for. -/
structure TracedLine where
  product : Product
  text : String
  deriving DecidableEq

/-- The lines that a product is read as. -/
def Product.traces (p : Product) : List TracedLine := (Text.lines (p.text ++ "\n")).map (TracedLine.mk p)

/-- The lines of a file of a category that are retained. -/
def retainedTraces (n : Nat) (category : Category) (ts : List TracedLine) : List TracedLine :=
  let changed := (ts.filter fun t => !t.text.isEmpty).filter fun t => hasChange t.text
  if category = .nominal then atMultiples n changed else changed

/-- The lines of the file of a bucket and a category that are retained. -/
def fileTraces (n : Nat) (make : SlicePair → List PairSequence) (count : Nat) (lines : List String)
    (source : Nat × Category) : List TracedLine :=
  retainedTraces n source.2
    ((fileProducts make count lines source.2 source.1 .single).flatMap Product.traces)

/-- The lines of all files that are retained. -/
def runTraces (options : SplitOptions) (make : SlicePair → List PairSequence) (lines : List String) :
    List TracedLine :=
  (foldSources options.buckets).flatMap
    (fileTraces (max options.sampleEvery 1) make options.buckets lines)

/-- A line with the bucket and the category of its product. -/
def TracedLine.sourceLine (count : Nat) (projects : List String) (t : TracedLine) : SourceLine :=
  ⟨bucketOf count projects t.product.project, t.product.sequence.category, t.text⟩

/-- The text of the file of a bucket and a category. -/
def fileText (make : SlicePair → List PairSequence) (count : Nat) (lines : List String) (bucket : Nat)
    (category : Category) : String :=
  Text.unlines ((fileProducts make count lines category bucket .single).map Product.text)

variable {make : SlicePair → List PairSequence} {count n fold : Nat} {lines : List String}
  {options : SplitOptions} {t : TracedLine}

theorem retainedTraces_sublist (n : Nat) (category : Category) (ts : List TracedLine) :
    (retainedTraces n category ts).Sublist ts := by
  have hchanged : ((ts.filter fun t => !t.text.isEmpty).filter fun t => hasChange t.text).Sublist ts :=
    List.filter_sublist.trans List.filter_sublist
  rw [retainedTraces]
  split
  next => exact (atMultiples_sublist n _).trans hchanged
  next => exact hchanged

/-- Retaining does not look at products. -/
theorem map_text_retainedTraces {ts : List TracedLine} {text : String}
    (h : ts.map TracedLine.text = Text.lines text) (n : Nat) (category : Category) :
    (retainedTraces n category ts).map TracedLine.text = retainedTexts n category text := by
  have hchanged : ((ts.filter fun t => !t.text.isEmpty).filter fun t => hasChange t.text).map
      TracedLine.text = changedTexts text := by
    rw [changedTexts, filledTexts, ← h, List.filter_map, List.filter_map]
    rfl
  rw [retainedTraces, retainedTexts, ← hchanged]
  split
  next => exact map_atMultiples TracedLine.text n _
  next => rfl

/-- The lines of a file are those that its products are read as. -/
theorem map_text_traces (ps : List Product) :
    (ps.flatMap Product.traces).map TracedLine.text =
      Text.lines (Text.unlines (ps.map Product.text)) := by
  rw [Text.lines_unlines, List.map_flatMap, List.flatMap_map]
  refine List.flatMap_congr fun p _ => ?_
  rw [Product.traces, List.map_map]
  exact List.map_id _

theorem of_mem_fileTraces {source : Nat × Category}
    (h : t ∈ fileTraces n make count lines source) :
    t.product ∈ fileProducts make count lines source.2 source.1 .single ∧
      t.text ∈ Text.lines (t.product.text ++ "\n") := by
  obtain ⟨p, hp, ht⟩ := List.mem_flatMap.mp ((retainedTraces_sublist n _ _).subset h)
  obtain ⟨text, htext, rfl⟩ := List.mem_map.mp ht
  exact ⟨hp, htext⟩

/-- The lines of a file without their products. -/
theorem map_sourceLine_fileTraces (source : Nat × Category) :
    (fileTraces n make count lines source).map (TracedLine.sourceLine count (projectsOf lines)) =
      fileLines (retainedTexts n) (fileText make count lines) source := by
  have htexts : (fileTraces n make count lines source).map TracedLine.text =
      retainedTexts n source.2 (fileText make count lines source.1 source.2) :=
    map_text_retainedTraces (map_text_traces _) n source.2
  rw [fileLines, ← htexts, List.map_map]
  refine List.map_congr_left fun t ht => ?_
  have hp := List.of_mem_filter (of_mem_fileTraces ht).1
  simp only [decide_eq_true_eq] at hp
  obtain ⟨hcategory, hbucket, -⟩ := hp
  rw [TracedLine.sourceLine, hcategory, hbucket]
  rfl

/-- **Without their products, traced lines are the lines that folds are made of.** -/
theorem map_sourceLine_runTraces (options : SplitOptions) (make : SlicePair → List PairSequence)
    (lines : List String) :
    (runTraces options make lines).map (TracedLine.sourceLine options.buckets (projectsOf lines)) =
      retainedLines options (fileText make options.buckets lines) := by
  rw [runTraces, List.map_flatMap, retainedLines, ← flatMap_foldSources]
  exact List.flatMap_congr fun source _ => map_sourceLine_fileTraces source

theorem of_mem_runTraces (h : t ∈ runTraces options make lines) :
    t.product ∈ products make lines ∧ t.text ∈ Text.lines (t.product.text ++ "\n") := by
  obtain ⟨source, -, h⟩ := List.mem_flatMap.mp h
  obtain ⟨hproduct, htext⟩ := of_mem_fileTraces h
  exact ⟨List.mem_of_mem_filter hproduct, htext⟩

/-! ## Two sides of a fold -/

/-- The lines that are for testing in a fold: those of the projects in its bucket. -/
def testTraces (options : SplitOptions) (make : SlicePair → List PairSequence) (lines : List String)
    (fold : Nat) : List TracedLine :=
  (runTraces options make lines).filter fun t =>
    bucketOf options.buckets (projectsOf lines) t.product.project = fold

/-- The lines that are for training in a fold: those of all other projects. -/
def trainTraces (options : SplitOptions) (make : SlicePair → List PairSequence) (lines : List String)
    (fold : Nat) : List TracedLine :=
  (runTraces options make lines).filter fun t =>
    bucketOf options.buckets (projectsOf lines) t.product.project ≠ fold

/-- The text of the file of some lines. -/
def tracesText (ts : List TracedLine) : String := Text.unlines (ts.map TracedLine.text)

theorem linesText_map_sourceLine (count : Nat) (projects : List String) (ts : List TracedLine) :
    linesText (ts.map (TracedLine.sourceLine count projects)) = tracesText ts := by
  rw [linesText, tracesText, List.map_map]
  rfl

theorem linesText_testLines : linesText (testLines options (fileText make options.buckets lines) fold) =
    tracesText (testTraces options make lines fold) := by
  rw [testLines, ← map_sourceLine_runTraces, List.filter_map, linesText_map_sourceLine]
  rfl

theorem linesText_trainLines : linesText (trainLines options (fileText make options.buckets lines) fold) =
    tracesText (trainTraces options make lines fold) := by
  rw [trainLines, ← map_sourceLine_runTraces, List.filter_map, linesText_map_sourceLine]
  rfl

/-- `t.Written make lines` holds if a line was written for something that is made of a pair of a record. -/
structure TracedLine.Written (t : TracedLine) (make : SlicePair → List PairSequence)
    (lines : List String) : Prop where
  text : t.text ∈ Text.lines (t.product.text ++ "\n")
  noFeed : '\n' ∉ t.text.toList
  origin : ∃ line r pair, lines[t.product.line]? = some line ∧ Record.ofLine line = .ok r ∧
    r.project = t.product.project ∧ r.pairs[t.product.pair]? = some pair ∧ t.product.sequence ∈ make pair

theorem written_of_mem_runTraces (h : t ∈ runTraces options make lines) : t.Written make lines := by
  obtain ⟨hproduct, htext⟩ := of_mem_runTraces h
  exact ⟨htext, Text.newline_notMem_of_mem_lines htext, exists_of_mem_products hproduct⟩

theorem finalBucket?_of_mem_runTraces (h : t ∈ runTraces options make lines) :
    finalBucket? options.buckets lines t.product.project =
      some (bucketOf options.buckets (projectsOf lines) t.product.project) :=
  Buckets.bucket?_seeAll (project_mem_projectsOf (of_mem_runTraces h).1)

/-- `Separate d out options make lines fold` holds if the two sides of a fold have lines of different
projects: the one side those of the projects in the bucket of the fold, the other side those of all other
projects. -/
structure Separate (d : Directory) (out : String) (options : SplitOptions)
    (make : SlicePair → List PairSequence) (lines : List String) (fold : Nat) : Prop where
  test : d.read (PartPaths.of out "test" fold).input =
    .ok (tracesText (testTraces options make lines fold))
  train : d.read (PartPaths.of out "train" fold).input =
    .ok (tracesText (trainTraces options make lines fold))
  ofTest : ∀ t ∈ testTraces options make lines fold, t.Written make lines ∧
    finalBucket? options.buckets lines t.product.project = some fold
  ofTrain : ∀ t ∈ trainTraces options make lines fold, t.Written make lines ∧
    ∃ bucket, finalBucket? options.buckets lines t.product.project = some bucket ∧ bucket ≠ fold
  apart : ∀ t ∈ testTraces options make lines fold, ∀ u ∈ trainTraces options make lines fold,
    t.product.project ≠ u.product.project

variable {d d₀ d₁ d₂ d₃ : Directory} {k : Location} {start out : String}

theorem separate_of_reads
    (htest : d.read (PartPaths.of out "test" fold).input =
      .ok (linesText (testLines options (fileText make options.buckets lines) fold)))
    (htrain : d.read (PartPaths.of out "train" fold).input =
      .ok (linesText (trainLines options (fileText make options.buckets lines) fold))) :
    Separate d out options make lines fold := by
  rw [linesText_testLines] at htest
  rw [linesText_trainLines] at htrain
  refine ⟨htest, htrain, ?_, ?_, ?_⟩
  · intro t ht
    obtain ⟨ht, hbucket⟩ := List.mem_filter.mp ht
    refine ⟨written_of_mem_runTraces ht, ?_⟩
    rw [finalBucket?_of_mem_runTraces ht, of_decide_eq_true hbucket]
  · intro t ht
    obtain ⟨ht, hbucket⟩ := List.mem_filter.mp ht
    exact ⟨written_of_mem_runTraces ht, _, finalBucket?_of_mem_runTraces ht, of_decide_eq_true hbucket⟩
  · intro t ht u hu heq
    have hbucket := of_decide_eq_true (List.mem_filter.mp ht).2
    rw [heq] at hbucket
    exact of_decide_eq_true (List.mem_filter.mp hu).2 hbucket

/-! ## From a corpus to folds -/

/-- `Clear d start out options` holds if no directory is where a file of sequences or of a fold
belongs. -/
structure Clear (d : Directory) (start out : String) (options : SplitOptions) : Prop where
  sources : ∀ bucket < options.buckets, ∀ category ∈ foldCategories,
    d.status (sequencePath start category (some bucket) Role.single.extension) ≠ .ok .directory
  parts : ∀ fold < options.folds, ∀ part ∈ partNames, ∀ extension ∈ partExtensions,
    d.status (Files.join out (partFile part fold extension)) ≠ .ok .directory

theorem Clear.rewritten {P : Location → Prop} (h : Clear d start out options) (hd : Rewritten P d d₁) :
    Clear d₁ start out options where
  sources bucket hbucket category hcategory hdir := by
    have hpath := SequenceKey.filePath start ⟨category, some bucket, .single⟩
    exact h.sources bucket hbucket category hcategory ((hd.status_directory_iff hpath).mp hdir)
  parts fold hfold part hpart extension hextension hdir := by
    have hpath := filePath_partFile out fold hpart hextension
    exact h.parts fold hfold part hpart extension hextension ((hd.status_directory_iff hpath).mp hdir)

/-- The files of a run can be read when directories have been made. -/
theorem sourcesAt_of_routed (hout : EmptyAt d₀ start d₁ k)
    (hrouted : Routed make options.buckets lines start k d₁ d₂)
    (hmade : d₂.makeDirectories out = .ok d₃) (hclear : Clear d₃ start out options) :
    SourcesAt d₃ start options (fileText make options.buckets lines) := by
  have hkept := Directory.extended_makeDirectories hmade
  intro source hsource
  obtain ⟨bucket, hbucket, hsource⟩ := List.mem_flatMap.mp hsource
  obtain ⟨category, hcategory, rfl⟩ := List.mem_map.mp hsource
  have hpath := SequenceKey.filePath start ⟨category, some bucket, .single⟩
  by_cases hnil : fileProducts make options.buckets lines category bucket .single = []
  · refine Or.inr ⟨?_, ?_⟩
    · have hlocate := hrouted.locate hout.toOutputAt ⟨category, some bucket, .single⟩
      exact hkept.has_eq_false hpath hlocate (hrouted.at?_eq_none hout hnil)
        (hclear.sources bucket (List.mem_range.mp hbucket) category hcategory)
    · rw [fileText, hnil]
      rfl
  · exact Or.inl (hkept.read hpath (hrouted.filled category bucket .single hnil))

namespace Command

/-- **No project has lines on both sides of a fold.**  Writing what is made of the mutants of a corpus
succeeds, and so does making folds of what has been written, if the directory for them can be made and no
directory is in the way. -/
theorem folds_separate_projects {directory name : String} (lines : List String) (buckets : Nat)
    (hout : EmptyAt d₀ (Files.join directory name) d₁ k) :
    ∃ summary d₂,
      Runs (writeCorpus (Files.join directory name) buckets writeMutantSet
        (processLines Record.mutants lines)) d₀ summary d₂ ∧
      Routed mutantSequences buckets lines (Files.join directory name) k d₁ d₂ ∧
      ∀ out folds sampleEvery d₃, d₂.makeDirectories out = .ok d₃ →
        Clear d₃ (Files.join directory name) out ⟨folds, buckets, sampleEvery⟩ →
          ∃ stats d₄,
            Runs (Corpus.buildFolds directory name out ⟨folds, buckets, sampleEvery⟩) d₂ stats d₄ ∧
            ∀ fold < folds, Separate d₄ out ⟨folds, buckets, sampleEvery⟩ mutantSequences lines fold := by
  obtain ⟨summary, d₂, hwrite, hrouted⟩ := succeeds_writeCorpus (m := StateM Directory) (r := ())
    adds_writeMutantSet (fun p => p.mutants.map some) lines buckets hout
  refine ⟨summary, d₂, hwrite.runs, hrouted, ?_⟩
  intro out folds sampleEvery d₃ hmade hclear
  obtain ⟨j, hwalk, hdirectory⟩ := Directory.walk_of_makeDirectories hmade
  have hplace : PlaceAt d₃ out j := ⟨hwalk, hdirectory⟩
  have hsources : SourcesAt d₃ (Files.join directory name) ⟨folds, buckets, sampleEvery⟩
      (fileText mutantSequences buckets lines) := sourcesAt_of_routed hout hrouted hmade hclear
  have hfree : ∀ fold ∈ List.range folds, ∀ l, IsFold j fold l → d₃.at? l ≠ some .directory := by
    rintro fold hfold l ⟨part, hpart, extension, hextension, rfl⟩ hdir
    have hlocate := hplace.locate_join (filePath_partFile out fold hpart hextension)
    refine hclear.parts fold (List.mem_range.mp hfold) part hpart extension hextension ?_
    exact Directory.status_eq_ok_iff.mpr ⟨_, hlocate, hdir⟩
  obtain ⟨d₄, hrun, hrewritten, hat⟩ :=
    exists_runs_buildFoldsOf hplace hsources List.nodup_range hfree
  refine ⟨_, d₄, (Runs.attempt_change hmade).bind hrun, ?_⟩
  intro fold hfold
  have hfold := hat fold (List.mem_range.mpr hfold)
  have hplace' := hplace.rewritten hrewritten
  exact separate_of_reads (hfold.test.reads (.tail _ (.head _)) hplace').input
    (hfold.train.reads (.head _) hplace').input

/-- Two empty directories. -/
def emptyPlaces : Directory := ⟨[(["seq"], .directory), (["folds"], .directory)]⟩

/-- The projects are in two buckets, and the line between their records has no part in that. -/
theorem folds_separate_two_projects :
    ∃ summary d₂ stats d₄,
      Runs (writeCorpus (Files.join "seq" "seq") 2 writeMutantSet
        (processLines Record.mutants twoProjects)) emptyPlaces summary d₂ ∧
      Runs (Corpus.buildFolds "seq" "seq" "folds" ⟨2, 2, 1⟩) d₂ stats d₄ ∧
      d₄.read "folds/test0.input" = .ok "~INSERTED_START~ x ~INSERTED_END~\n" ∧
      d₄.read "folds/train0.input" = .ok "~INSERTED_START~ y ~INSERTED_END~\n" := by
  have hempty : EmptyAt emptyPlaces (Files.join "seq" "seq") emptyPlaces ["seq"] := by
    refine ⟨Files.OutputAt.of_walk (by decide) (by decide), fun name => ?_⟩
    simp [emptyPlaces, Directory.at?, List.lookup_cons]
  obtain ⟨summary, d₂, hwrite, hrouted, hfolds⟩ := folds_separate_projects twoProjects 2 hempty
  have hclear : Clear emptyPlaces (Files.join "seq" "seq") "folds" ⟨2, 2, 1⟩ := ⟨by decide, by decide⟩
  have hmade : d₂.makeDirectories "folds" = .ok d₂ := by
    have hthere := (hrouted.rewritten.directories ["folds"]).mpr (by decide)
    exact Directory.makeAlong_cons_of_directory hthere
  obtain ⟨stats, d₄, hbuilt, hseparate⟩ := hfolds "folds" 2 1 d₂ hmade (hclear.rewritten hrouted.rewritten)
  obtain ⟨htest, htrain, -⟩ := hseparate 0 (by decide)
  have hproducts : products mutantSequences twoProjects =
      [⟨0, 0, "p", ⟨.nominal, .single, ["~INSERTED_START~", "x", "~INSERTED_END~"]⟩⟩,
        ⟨2, 0, "q", ⟨.nominal, .single, ["~INSERTED_START~", "y", "~INSERTED_END~"]⟩⟩] := by
    rw [products_twoProjects]
    rfl
  have htexts : tracesText (testTraces ⟨2, 2, 1⟩ mutantSequences twoProjects 0) =
        "~INSERTED_START~ x ~INSERTED_END~\n" ∧
      tracesText (trainTraces ⟨2, 2, 1⟩ mutantSequences twoProjects 0) =
        "~INSERTED_START~ y ~INSERTED_END~\n" := by
    unfold testTraces trainTraces runTraces fileTraces fileProducts
    rw [hproducts, projectsOf_twoProjects]
    decide +kernel
  rw [htexts.1] at htest
  rw [htexts.2] at htrain
  exact ⟨summary, _, stats, d₄, hwrite, hbuilt, htest, htrain⟩

end Command

end RepairCorpus
