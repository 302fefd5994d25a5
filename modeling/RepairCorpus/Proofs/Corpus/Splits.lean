import RepairCorpus.Proofs.Corpus.FoldFiles
import RepairCorpus.Proofs.Corpus.Sifting

/-!
# Splitting into folds

Folds are made one after the other, and each reads all sequences again.  That every fold is a split of
the same lines is therefore a statement about files: making a fold changes no file of sequences and no
file of another fold.

* `TextAt`: the text at a path, with a missing file counting as empty.
* `reads_readSources`: reading the files of all buckets is adding one after the other.
* `exists_runs_buildFold`: **a fold is made and nothing else changes**.
* `exists_runs_buildFoldsOf`: so are several.
* `Corpus.buildFolds_splits`: **every fold is the same retained lines, split by bucket**.
-/

namespace RepairCorpus

open Files (Directory Location FilePath)
open Files.Directory (Rewritten)
open Work (Runs PlaceAt)

variable {d d' : Directory} {start out path text : String} {k : Location} {fold n : Nat}
  {texts : Nat → Category → String} {sources : List (Nat × Category)}

/-! ## Reading -/

/-- `TextAt d path text` holds if a text can be read at a path.  A file that is missing counts as
empty. -/
def TextAt (d : Directory) (path text : String) : Prop :=
  d.read path = .ok text ∨ d.has path = false ∧ text = ""

/-- The path of the file of a bucket and a category. -/
def sourcePath (start : String) (source : Nat × Category) : String :=
  sequencePath start source.2 (some source.1) Role.single.extension

/-- `Reads d w f x f'` holds if work on a fold under construction succeeds with `x`, makes `f'` of
`f`, and leaves the directory as it is. -/
def Reads {α : Type} (d : Directory) (w : Corpus.FoldWork (StateM Directory) α) (f : Fold) (x : α)
    (f' : Fold) : Prop :=
  ((ExceptT.run w).run f).run d = ((.ok x, f'), d)

namespace Reads

variable {α β : Type} {w : Corpus.FoldWork (StateM Directory) α}
  {g : α → Corpus.FoldWork (StateM Directory) β} {f f' f'' : Fold} {x : α} {y : β}

theorem bind (hw : Reads d w f x f') (hg : Reads d (g x) f' y f'') : Reads d (w >>= g) f y f'' := by
  rw [Reads] at hw
  rw [Reads, ExceptT.run_bind, StateT.run_bind, StateT.run_bind, hw]
  exact hg

theorem has (path : String) (f : Fold) :
    Reads d (Work.query (Storage.has path)) f (d.has path) f := rfl

theorem read (h : d.read path = .ok text) (f : Fold) :
    Reads d (Work.attempt .readFile path (Storage.read path)) f text f := by
  have haccess : ((Storage.read path : StateT Fold (StateM Directory) _).run f).run d =
      ((.ok text, f), d) := by
    rw [← h]
    rfl
  rw [Reads, Work.attempt, ExceptT.run_mk, StateT.run_bind, StateT.run_bind, haccess]
  rfl

theorem modify (change : Fold → Fold) (f : Fold) :
    Reads d (MonadStateOf.modifyGet fun f => ((), change f)) f () (change f) := rfl

end Reads

theorem sift_empty (category : Category) (n : Nat) : sift category n "" = ⟨[], 0, 0⟩ := by
  have hlines : Text.lines "" = [] := by decide
  rw [sift, hlines]
  cases category <;> rfl

theorem addFile_of_empty {source : Nat × Category} (h : texts source.1 source.2 = "") (f : Fold) :
    f.addFile n texts fold source = f := by
  rw [Fold.addFile, h, sift_empty, Fold.add]
  simp only [List.map_nil, List.append_nil, ite_self, Nat.add_zero]

/-- Reading adds file after file. -/
theorem reads_readSources
    (h : ∀ source ∈ sources, TextAt d (sourcePath start source) (texts source.1 source.2)) (f : Fold) :
    Reads d (Corpus.readSources start fold n sources) f () (sources.foldl (Fold.addFile n texts fold) f) := by
  induction sources generalizing f with
  | nil => rfl
  | cons source sources ih =>
    have hrest := fun f => ih (fun source' hsource' => h source' (.tail _ hsource')) f
    rw [Corpus.readSources, List.foldl_cons]
    refine (Reads.has (sourcePath start source) f).bind ?_
    rcases h source (.head _) with hread | ⟨hmissing, hempty⟩
    · have hhas : d.has (sourcePath start source) = true := by
        obtain ⟨content, hstatus, -⟩ := Files.Directory.read_eq_ok_iff.mp hread
        exact Files.Directory.has_iff.mpr ⟨_, hstatus⟩
      rw [if_pos hhas]
      refine (Reads.read hread f).bind ((Reads.modify _ f).bind ?_)
      exact hrest (f.addFile n texts fold source)
    · rw [hmissing, addFile_of_empty hempty]
      exact hrest f

/-! ## Making folds -/

/-- The text of the file of some lines. -/
def linesText (lines : List SourceLine) : String := Text.unlines (lines.map fun l => l.text)

/-- The text of the file of the labels of some lines. -/
def labelsText (lines : List SourceLine) : String :=
  Text.unlines (lines.map fun l => if l.category = .mutant then "MISSING_TRY" else "NOMINAL")

theorem inputText_toFoldLine (lines : List SourceLine) :
    inputText (lines.map SourceLine.toFoldLine) = linesText lines := by
  rw [inputText, linesText, List.map_map]
  rfl

theorem expectedText_toFoldLine (lines : List SourceLine) :
    expectedText (lines.map SourceLine.toFoldLine) = labelsText lines := by
  rw [expectedText, labelsText, List.map_map]
  refine congrArg Text.unlines (List.map_congr_left fun l _ => ?_)
  show l.category.label = _
  cases l.category <;> rfl

/-- `SourcesAt d start options texts` holds if the texts of the files of all buckets can be read. -/
def SourcesAt (d : Directory) (start : String) (options : SplitOptions)
    (texts : Nat → Category → String) : Prop :=
  ∀ source ∈ foldSources options.buckets, TextAt d (sourcePath start source) (texts source.1 source.2)

variable {options : SplitOptions}

/-- Reading sequences does not see the files of folds. -/
theorem SourcesAt.rewritten (h : SourcesAt d start options texts)
    (hd : Rewritten (fun l => ∃ fold, IsFold k fold l) d d') : SourcesAt d' start options texts := by
  intro source hsource
  have hpath := SequenceKey.filePath start ⟨source.2, some source.1, .single⟩
  have hother : ∀ j, ¬ ∃ fold, IsFold k fold
      (j ++ [Files.nameFront start ++ SequenceKey.tail ⟨source.2, some source.1, .single⟩]) := by
    rintro j ⟨fold, part, -, extension, hextension, heq⟩
    obtain ⟨-, heq⟩ := List.append_inj' heq rfl
    exact partFile_ne_sequence _ source.2 _ hextension (List.cons.inj heq).1
  rcases h source hsource with hread | ⟨hmissing, hempty⟩
  · exact .inl ((hd.read_iff hpath hother).mpr hread)
  · exact .inr ⟨(hd.has_eq hpath hother).trans hmissing, hempty⟩

/-- `FoldAt d k options texts fold` holds if the files of a fold hold its lines and their labels. -/
structure FoldAt (d : Directory) (k : Location) (options : SplitOptions)
    (texts : Nat → Category → String) (fold : Nat) : Prop where
  train : PartAt d k "train" fold (linesText (trainLines options texts fold))
    (labelsText (trainLines options texts fold))
  test : PartAt d k "test" fold (linesText (testLines options texts fold))
    (labelsText (testLines options texts fold))

theorem FoldAt.rewritten {P : Location → Prop} (h : FoldAt d k options texts fold)
    (hd : Rewritten P d d') (hother : ∀ l, IsFold k fold l → ¬ P l) :
    FoldAt d' k options texts fold where
  train := h.train.rewritten hd fun l hl => hother l (isFold_train hl)
  test := h.test.rewritten hd fun l hl => hother l (isFold_test hl)

/-- **A fold is made, and nothing else changes.** -/
theorem exists_runs_buildFold (hout : PlaceAt d out k) (hsources : SourcesAt d start options texts)
    (hfree : ∀ l, IsFold k fold l → d.at? l ≠ some .directory) :
    ∃ d', Runs (Corpus.buildFold start out options fold) d (splitFold options texts fold).stats d' ∧
      Rewritten (IsFold k fold) d d' ∧ FoldAt d' k options texts fold := by
  have htrain : "train" ∈ partNames := .head _
  have htest : "test" ∈ partNames := .tail _ (.head _)
  -- The four files are made.
  obtain ⟨d₁, hrun₁, h₁, hat₁⟩ := exists_runs_createPart hout htrain
    fun l hl => hfree l (isFold_train hl)
  have hout₁ := hout.rewritten h₁
  have hfree₁ : ∀ l, IsPart k "test" fold l → d₁.at? l ≠ some .directory := by
    intro l hl
    rw [h₁.others l (not_isPart_train hl)]
    exact hfree l (isFold_test hl)
  obtain ⟨d₂, hrun₂, h₂, hat₂⟩ := exists_runs_createPart hout₁ htest hfree₁
  have hout₂ := hout₁.rewritten h₂
  have hmade : Rewritten (IsFold k fold) d d₂ :=
    (h₁.mono fun _ => isFold_train).trans (h₂.mono fun _ => isFold_test)
  -- What is read is what was there before.
  have hsources₂ := hsources.rewritten (hmade.mono fun l hl => ⟨fold, hl⟩)
  have hread : Runs (Work.query ((ExceptT.run (Corpus.readSources start fold
      (max options.sampleEvery 1) (foldSources options.buckets))).run .empty)) d₂ _ d₂ :=
    Runs.query (reads_readSources hsources₂ .empty)
  rw [foldl_addFile_foldSources] at hread
  -- The four files are written.
  obtain ⟨d₃, hrun₃, h₃, hat₃⟩ := exists_runs_writePart hout₂ htrain
    (hat₁.rewritten h₂ fun l => not_isPart_test) (splitFold options texts fold).train
  obtain ⟨d₄, hrun₄, h₄, hat₄⟩ := exists_runs_writePart (hout₂.rewritten h₃) htest
    (hat₂.rewritten h₃ fun l => not_isPart_train) (splitFold options texts fold).test
  have hwritten : Rewritten (IsFold k fold) d₂ d₄ :=
    (h₃.mono fun _ => isFold_train).trans (h₄.mono fun _ => isFold_test)
  refine ⟨d₄, ?_, hmade.trans hwritten, ?_, ?_⟩
  · exact hrun₁.bind (hrun₂.bind (hread.bind (hrun₃.bind (hrun₄.bind (Runs.pure _ d₄)))))
  · have htrain₄ := hat₃.rewritten h₄ fun l => not_isPart_test
    rwa [splitFold, splitLines, inputText_toFoldLine, expectedText_toFoldLine] at htrain₄
  · rwa [splitFold, splitLines, inputText_toFoldLine, expectedText_toFoldLine] at hat₄

/-- Folds are made one after the other, and no fold changes another one. -/
theorem exists_runs_buildFoldsOf {folds : List Nat} (hout : PlaceAt d out k)
    (hsources : SourcesAt d start options texts) (hdifferent : folds.Nodup)
    (hfree : ∀ fold ∈ folds, ∀ l, IsFold k fold l → d.at? l ≠ some .directory) :
    ∃ d', Runs (Corpus.buildFoldsOf start out options folds) d
        (folds.map fun fold => (fold, (splitFold options texts fold).stats)) d' ∧
      Rewritten (fun l => ∃ fold ∈ folds, IsFold k fold l) d d' ∧
      ∀ fold ∈ folds, FoldAt d' k options texts fold := by
  induction folds generalizing d with
  | nil =>
    exact ⟨d, Runs.pure _ d, Rewritten.refl _ d, fun fold hfold => absurd hfold List.not_mem_nil⟩
  | cons fold folds ih =>
    obtain ⟨hnew, hdifferent⟩ := List.nodup_cons.mp hdifferent
    obtain ⟨d₁, hrun₁, h₁, hat₁⟩ := exists_runs_buildFold hout hsources (hfree fold (.head _))
    have hfree₁ : ∀ other ∈ folds, ∀ l, IsFold k other l → d₁.at? l ≠ some .directory := by
      intro other hother l hl hdir
      exact hfree other (.tail _ hother) l hl ((h₁.directories l).mp hdir)
    obtain ⟨d₂, hrun₂, h₂, hat₂⟩ := ih (hout.rewritten h₁)
      (hsources.rewritten (h₁.mono fun l hl => ⟨fold, hl⟩)) hdifferent hfree₁
    have hfirst : FoldAt d₂ k options texts fold := by
      refine hat₁.rewritten h₂ fun l hl => ?_
      rintro ⟨other, hother, hl'⟩
      exact hnew (isFold_inj hl hl' ▸ hother)
    refine ⟨d₂, hrun₁.bind (hrun₂.bind (Runs.pure _ d₂)), ?_, ?_⟩
    · refine (h₁.mono fun l hl => ⟨fold, .head _, hl⟩).trans (h₂.mono ?_)
      rintro l ⟨other, hother, hl⟩
      exact ⟨other, .tail _ hother, hl⟩
    · intro other hother
      rcases List.mem_cons.mp hother with rfl | hother
      · exact hfirst
      · exact hat₂ other hother

/-! ## The files of all folds -/

/-- `PartReads d paths lines` holds if lines and their labels can be read from the files of a part. -/
structure PartReads (d : Directory) (paths : PartPaths) (lines : List SourceLine) : Prop where
  input : d.read paths.input = .ok (linesText lines)
  expected : d.read paths.expected = .ok (labelsText lines)

theorem PartAt.reads {part : String} {lines : List SourceLine}
    (h : PartAt d k part fold (linesText lines) (labelsText lines)) (hpart : part ∈ partNames)
    (hout : PlaceAt d out k) : PartReads d (PartPaths.of out part fold) lines where
  input := hout.read_join (filePath_partFile out fold hpart (.head _)) h.input
  expected := hout.read_join (filePath_partFile out fold hpart (.tail _ (.head _))) h.expected

/-- **Every fold is the same retained lines, split by bucket.**  Making folds succeeds if the directory
for them can be made, the sequences that are then there can be read, and no directory is where a file
of a fold belongs. -/
theorem Corpus.buildFolds_splits {d₀ : Directory} {directory name : String} (options : SplitOptions)
    (texts : Nat → Category → String) (hmade : d₀.makeDirectories out = .ok d)
    (hsources : ∀ bucket < options.buckets, ∀ category ∈ [Category.candidate, .mutant, .nominal],
      TextAt d (sequencePath (Files.join directory name) category (some bucket) "seq")
        (texts bucket category))
    (hfree : ∀ fold < options.folds, ∀ part ∈ ["train", "test"], ∀ extension ∈ [".input", ".expected"],
      d.status (Files.join out (part ++ Text.ofNat fold ++ extension)) ≠ .ok .directory) :
    ∃ d',
      Runs (Corpus.buildFolds directory name out options) d₀
        ((List.range options.folds).map fun fold => (fold,
          { train := (trainLines options texts fold).length
            test := (testLines options texts fold).length
            omitted := (omittedLines options texts).length
            skipped := (skippedLines options texts).length })) d' ∧
      (∀ fold < options.folds,
        PartReads d' (PartPaths.of out "test" fold) (testLines options texts fold) ∧
          PartReads d' (PartPaths.of out "train" fold) (trainLines options texts fold)) ∧
      (∀ l ∈ retainedLines options texts, '\n' ∉ l.text.toList) ∧
      (∀ fold, (trainLines options texts fold).length + (testLines options texts fold).length
          + (omittedLines options texts).length + (skippedLines options texts).length
        = (filledLines options texts).length) ∧
      (options.folds = options.buckets →
        (List.range options.folds).flatMap (testLines options texts) = retainedLines options texts ∧
          ∀ l ∈ retainedLines options texts, l.bucket < options.folds ∧ ∀ fold,
            (l ∈ testLines options texts fold ↔ l.bucket = fold) ∧
              (l ∈ trainLines options texts fold ↔ l.bucket ≠ fold)) := by
  obtain ⟨k, hwalk, hdirectory⟩ := Directory.walk_of_makeDirectories hmade
  have hout : PlaceAt d out k := ⟨hwalk, hdirectory⟩
  have hsources' : SourcesAt d (Files.join directory name) options texts := by
    intro source hsource
    obtain ⟨bucket, hbucket, hsource⟩ := List.mem_flatMap.mp hsource
    obtain ⟨category, hcategory, rfl⟩ := List.mem_map.mp hsource
    exact hsources bucket (List.mem_range.mp hbucket) category hcategory
  have hfree' : ∀ fold ∈ List.range options.folds, ∀ l, IsFold k fold l →
      d.at? l ≠ some .directory := by
    rintro fold hfold l ⟨part, hpart, extension, hextension, rfl⟩ hdir
    refine hfree fold (List.mem_range.mp hfold) part hpart extension hextension ?_
    have hlocate := hout.locate_join (filePath_partFile out fold hpart hextension)
    exact Directory.status_eq_ok_iff.mpr ⟨_, hlocate, hdir⟩
  obtain ⟨d', hrun, hrewritten, hat⟩ :=
    exists_runs_buildFoldsOf hout hsources' List.nodup_range hfree'
  have hout' := hout.rewritten hrewritten
  simp only [stats_splitFold] at hrun
  refine ⟨d', (Runs.attempt_change hmade).bind hrun, ?_, ?_, ?_, ?_⟩
  · intro fold hfold
    have hfold := hat fold (List.mem_range.mpr hfold)
    exact ⟨hfold.test.reads (.tail _ (.head _)) hout', hfold.train.reads (.head _) hout'⟩
  · intro l hl
    exact Text.newline_notMem_of_mem_lines (of_mem_retainedLines hl).1
  · intro fold
    rw [length_trainLines_add, length_filledLines]
  · intro heq
    rw [heq]
    refine ⟨flatMap_testLines, fun l hl => ⟨bucket_lt_of_mem_retainedLines hl, fun fold => ?_⟩⟩
    exact ⟨mem_testLines_iff hl fold, mem_trainLines_iff hl fold⟩

instance (d : Directory) (path text : String) : Decidable (TextAt d path text) :=
  inferInstanceAs (Decidable (_ ∨ _))

/-- Sequences in two buckets, of which the first has a mutant and the second nominal code. -/
def twoBuckets : Directory :=
  ⟨[(["seq"], .directory),
    (["seq", "seq-mutant0.seq"], .file (.text "~INSERTED_START~ x\nplain\n")),
    (["seq", "seq-nominal1.seq"], .file (.text "~UPDATED_START~ a\n~UPDATED_START~ b\n"))]⟩

/-- Their texts. -/
def twoBucketsText (bucket : Nat) (category : Category) : String :=
  if bucket = 0 ∧ category = .mutant then "~INSERTED_START~ x\nplain\n"
  else if bucket = 1 ∧ category = .nominal then "~UPDATED_START~ a\n~UPDATED_START~ b\n"
  else ""

theorem Corpus.buildFolds_splits_twoBuckets :
    ∃ d', Runs (Corpus.buildFolds "seq" "seq" "xfold" ⟨2, 2, 2⟩) twoBuckets
        [(0, ⟨1, 1, 1, 1⟩), (1, ⟨1, 1, 1, 1⟩)] d' ∧
      d'.read "xfold/test0.input" = .ok "~INSERTED_START~ x\n" ∧
      d'.read "xfold/test0.expected" = .ok "MISSING_TRY\n" ∧
      d'.read "xfold/train0.input" = .ok "~UPDATED_START~ a\n" ∧
      d'.read "xfold/train0.expected" = .ok "NOMINAL\n" := by
  have hmade : twoBuckets.makeDirectories "xfold" = .ok (twoBuckets.put ["xfold"] .directory) := by
    decide
  have hsources : ∀ bucket < 2, ∀ category ∈ [Category.candidate, .mutant, .nominal],
      TextAt (twoBuckets.put ["xfold"] .directory)
        (sequencePath (Files.join "seq" "seq") category (some bucket) "seq")
        (twoBucketsText bucket category) := by decide
  obtain ⟨d', hrun, hparts, -⟩ :=
    Corpus.buildFolds_splits ⟨2, 2, 2⟩ twoBucketsText hmade hsources (by decide)
  obtain ⟨htest, htrain⟩ := hparts 0 (by decide)
  exact ⟨d', hrun, htest.input, htest.expected, htrain.input, htrain.expected⟩

end RepairCorpus
