import Mathlib.Data.List.Basic
import RepairCorpus.Corpus.Folds

/-!
# Sifting lines

What a fold takes from the files of sequences is decided file by file, and the number of the fold only
decides where it goes.  So the lines are described once for all folds, each with the bucket and the
category of its file, and a fold is a split of them.

* `atMultiples`: sampling by position, which is what `everyNth` does (`everyNth_zero`).
* `retainedTexts`, `omittedTexts`, `skippedTexts`: what becomes of the lines of a text
  (`length_filledTexts`), which is what `sift` finds (`kept_sift`, `omitted_sift`, `skipped_sift`).
* `retainedLines`, `testLines`, `trainLines`: the retained lines of all files and their split.
* `flatMap_testLines`: **the lines for testing in all folds are the retained lines**.
* `foldl_addFile_foldSources`: **a fold has the retained lines, split by their buckets**.
-/

namespace RepairCorpus

/-! ## Sampling -/

/-- The items at the positions that are multiples of `n`. -/
def atMultiples {α : Type} (n : Nat) (xs : List α) : List α :=
  (xs.zipIdx.filter fun x => x.2 % n = 0).map Prod.fst

/-- Counting down to the next item that is kept is counting positions up to a multiple. -/
theorem everyNth_eq_filter_zipIdx {α : Type} {n wait position : Nat} (hwait : wait < n)
    (hnext : (position + wait) % n = 0) (xs : List α) :
    everyNth n wait xs = ((xs.zipIdx position).filter fun x => x.2 % n = 0).map Prod.fst := by
  induction xs generalizing wait position with
  | nil => rfl
  | cons x xs ih =>
    rw [List.zipIdx_cons]
    cases wait with
    | zero =>
      have hlater : (position + 1 + (n - 1)) % n = 0 := by
        have hsum : position + 1 + (n - 1) = position + 0 + n := by omega
        rw [hsum, Nat.add_mod_right, hnext]
      rw [everyNth, ih (by omega) hlater, List.filter_cons_of_pos, List.map_cons]
      exact decide_eq_true hnext
    | succ wait =>
      have hskip : ¬ position % n = 0 := by
        intro h
        have hmod : (wait + 1) % n = 0 := by
          rw [Nat.add_mod, h, Nat.zero_add, Nat.mod_mod] at hnext
          exact hnext
        rw [Nat.mod_eq_of_lt hwait] at hmod
        omega
      have hlater : (position + 1 + wait) % n = 0 := by
        have hsum : position + 1 + wait = position + (wait + 1) := by omega
        rw [hsum, hnext]
      rw [everyNth, ih (by omega) hlater, List.filter_cons_of_neg]
      intro h
      exact hskip (of_decide_eq_true h)

theorem everyNth_zero {α : Type} {n : Nat} (hn : 0 < n) (xs : List α) :
    everyNth n 0 xs = atMultiples n xs :=
  everyNth_eq_filter_zipIdx hn (Nat.zero_mod n) xs

/-- The items at the other positions. -/
def offMultiples {α : Type} (n : Nat) (xs : List α) : List α :=
  (xs.zipIdx.filter fun x => !decide (x.2 % n = 0)).map Prod.fst

theorem atMultiples_sublist {α : Type} (n : Nat) (xs : List α) : (atMultiples n xs).Sublist xs := by
  have h := (List.filter_sublist (l := xs.zipIdx) (p := fun x => decide (x.2 % n = 0))).map Prod.fst
  rwa [List.zipIdx_map_fst] at h

/-- Sampling looks at positions only. -/
theorem map_atMultiples {α β : Type} (f : α → β) (n : Nat) (xs : List α) :
    (atMultiples n xs).map f = atMultiples n (xs.map f) := by
  rw [atMultiples, atMultiples, List.zipIdx_map, List.filter_map, List.map_map, List.map_map]
  rfl

theorem length_atMultiples_add {α : Type} (n : Nat) (xs : List α) :
    (atMultiples n xs).length + (offMultiples n xs).length = xs.length := by
  have h := List.length_eq_length_filter_add (l := xs.zipIdx) fun x => decide (x.2 % n = 0)
  rw [atMultiples, offMultiples, List.length_map, List.length_map, ← h, List.length_zipIdx]

/-! ## Lines of a text -/

/-- The lines of a text that are not empty. -/
def filledTexts (text : String) : List String := (Text.lines text).filter fun line => !line.isEmpty

/-- Those that show a change. -/
def changedTexts (text : String) : List String := (filledTexts text).filter hasChange

/-- Those that show none. -/
def omittedTexts (text : String) : List String := (filledTexts text).filter fun t => !hasChange t

/-- The lines of the text of a file of a category that are retained: those that show a change, and of
the nominal ones those at the positions that are multiples of `n`. -/
def retainedTexts (n : Nat) (category : Category) (text : String) : List String :=
  if category = .nominal then atMultiples n (changedTexts text) else changedTexts text

/-- The lines that are skipped: the nominal ones that show a change, at the other positions. -/
def skippedTexts (n : Nat) (category : Category) (text : String) : List String :=
  if category = .nominal then offMultiples n (changedTexts text) else []

variable {n : Nat}

theorem retainedTexts_sublist (n : Nat) (category : Category) (text : String) :
    (retainedTexts n category text).Sublist (changedTexts text) := by
  rw [retainedTexts]
  split
  next => exact atMultiples_sublist n _
  next => exact List.Sublist.refl _

theorem length_retainedTexts_add (n : Nat) (category : Category) (text : String) :
    (retainedTexts n category text).length + (skippedTexts n category text).length =
      (changedTexts text).length := by
  rw [retainedTexts, skippedTexts]
  by_cases h : category = .nominal
  · rw [if_pos h, if_pos h, length_atMultiples_add]
  · rw [if_neg h, if_neg h, List.length_nil, Nat.add_zero]

theorem length_changedTexts_add (text : String) :
    (changedTexts text).length + (omittedTexts text).length = (filledTexts text).length :=
  (List.length_eq_length_filter_add hasChange).symm

/-- Every line that is not empty is retained, omitted or skipped. -/
theorem length_filledTexts (n : Nat) (category : Category) (text : String) :
    (filledTexts text).length =
      (retainedTexts n category text).length + (omittedTexts text).length
        + (skippedTexts n category text).length := by
  have hchanged := length_changedTexts_add text
  have hretained := length_retainedTexts_add n category text
  omega

/-- What sifting keeps. -/
theorem kept_sift (hn : 0 < n) (category : Category) (text : String) :
    (sift category n text).kept = retainedTexts n category text := by
  show (if category = .nominal then everyNth n 0 _ else _) = _
  rw [everyNth_zero hn]
  rfl

/-- How many lines sifting omits. -/
theorem omitted_sift (category : Category) (n : Nat) (text : String) :
    (sift category n text).omitted = (omittedTexts text).length := by
  show (filledTexts text).length - (changedTexts text).length = _
  have hchanged := length_changedTexts_add text
  omega

/-- How many lines sifting skips. -/
theorem skipped_sift (hn : 0 < n) (category : Category) (text : String) :
    (sift category n text).skipped = (skippedTexts n category text).length := by
  show (changedTexts text).length - (sift category n text).kept.length = _
  have hretained := length_retainedTexts_add n category text
  rw [kept_sift hn]
  omega

/-! ## Lines of files -/

/-- A line with the bucket and the category of its file. -/
structure SourceLine where
  bucket : Nat
  category : Category
  text : String
  deriving DecidableEq

/-- The line as a part of a fold has it. -/
def SourceLine.toFoldLine (l : SourceLine) : FoldLine := ⟨l.category, l.text⟩

/-- The lines that are chosen from the file of a bucket and a category. -/
def fileLines (choose : Category → String → List String) (texts : Nat → Category → String)
    (source : Nat × Category) : List SourceLine :=
  (choose source.2 (texts source.1 source.2)).map (SourceLine.mk source.1 source.2)

/-- The lines that are chosen from the files of a bucket, category by category and then as they stand
in the file. -/
def bucketLines (choose : Category → String → List String) (texts : Nat → Category → String)
    (bucket : Nat) : List SourceLine :=
  [Category.candidate, .mutant, .nominal].flatMap fun category =>
    fileLines choose texts (bucket, category)

/-- The lines that are chosen from the files of some buckets, bucket by bucket. -/
def chosenLines (choose : Category → String → List String) (texts : Nat → Category → String)
    (buckets : Nat) : List SourceLine :=
  (List.range buckets).flatMap (bucketLines choose texts)

variable (options : SplitOptions) (texts : Nat → Category → String) (fold : Nat)

/-- The lines that are not empty, of the files of all buckets. -/
def filledLines : List SourceLine := chosenLines (fun _ => filledTexts) texts options.buckets

/-- The lines that show no change. -/
def omittedLines : List SourceLine := chosenLines (fun _ => omittedTexts) texts options.buckets

/-- The lines that are retained.  They are the same for all folds. -/
def retainedLines : List SourceLine :=
  chosenLines (retainedTexts (max options.sampleEvery 1)) texts options.buckets

/-- The lines that are left out by sampling. -/
def skippedLines : List SourceLine :=
  chosenLines (skippedTexts (max options.sampleEvery 1)) texts options.buckets

/-- The retained lines that are for testing in a fold. -/
def testLines : List SourceLine := (retainedLines options texts).filter fun l => l.bucket = fold

/-- The retained lines that are for training in a fold. -/
def trainLines : List SourceLine := (retainedLines options texts).filter fun l => l.bucket ≠ fold

section Lines

variable {choose : Category → String → List String} {texts} {options} {buckets : Nat}

theorem flatMap_foldSources :
    (foldSources buckets).flatMap (fileLines choose texts) = chosenLines choose texts buckets := by
  rw [foldSources, List.flatMap_assoc]
  refine List.flatMap_congr fun bucket _ => ?_
  rw [List.flatMap_map]
  rfl

theorem length_fileLines {source : Nat × Category} :
    (fileLines choose texts source).length = (choose source.2 (texts source.1 source.2)).length :=
  List.length_map _

theorem mem_fileLines_iff {source : Nat × Category} {l : SourceLine} :
    l ∈ fileLines choose texts source ↔
      l.bucket = source.1 ∧ l.category = source.2 ∧ l.text ∈ choose source.2 (texts source.1 source.2) := by
  rw [fileLines, List.mem_map]
  constructor
  · rintro ⟨text, htext, rfl⟩
    exact ⟨rfl, rfl, htext⟩
  · rintro ⟨hbucket, hcategory, htext⟩
    refine ⟨l.text, htext, ?_⟩
    rw [← hbucket, ← hcategory]

theorem mem_bucketLines_iff {bucket : Nat} {l : SourceLine} :
    l ∈ bucketLines choose texts bucket ↔
      l.bucket = bucket ∧ l.category ∈ foldCategories ∧
        l.text ∈ choose l.category (texts l.bucket l.category) := by
  rw [bucketLines, List.mem_flatMap]
  constructor
  · rintro ⟨category, hcategory, hl⟩
    obtain ⟨rfl, rfl, htext⟩ := mem_fileLines_iff.mp hl
    exact ⟨rfl, hcategory, htext⟩
  · rintro ⟨rfl, hcategory, htext⟩
    exact ⟨l.category, hcategory, mem_fileLines_iff.mpr ⟨rfl, rfl, htext⟩⟩

theorem mem_chosenLines_iff {l : SourceLine} :
    l ∈ chosenLines choose texts buckets ↔
      l.bucket < buckets ∧ l.category ∈ foldCategories ∧
        l.text ∈ choose l.category (texts l.bucket l.category) := by
  rw [chosenLines, List.mem_flatMap]
  constructor
  · rintro ⟨bucket, hbucket, hl⟩
    obtain ⟨rfl, hchosen⟩ := mem_bucketLines_iff.mp hl
    exact ⟨List.mem_range.mp hbucket, hchosen⟩
  · rintro ⟨hbucket, hl⟩
    exact ⟨l.bucket, List.mem_range.mpr hbucket, mem_bucketLines_iff.mpr ⟨rfl, hl⟩⟩

/-- A retained line is one of its file that is not empty and shows a change. -/
theorem of_mem_retainedLines {l : SourceLine} (h : l ∈ retainedLines options texts) :
    l.text ∈ Text.lines (texts l.bucket l.category) ∧ l.text.isEmpty = false ∧
      hasChange l.text = true := by
  obtain ⟨-, -, htext⟩ := mem_chosenLines_iff.mp h
  obtain ⟨hfilled, hchange⟩ :=
    List.mem_filter.mp ((retainedTexts_sublist _ l.category _).subset htext)
  obtain ⟨hline, hempty⟩ := List.mem_filter.mp hfilled
  exact ⟨hline, Bool.not_eq_true' _ |>.mp hempty, hchange⟩

theorem bucket_lt_of_mem_retainedLines {l : SourceLine} (h : l ∈ retainedLines options texts) :
    l.bucket < options.buckets :=
  (mem_chosenLines_iff.mp h).1

/-- A retained line is for testing in the fold of its bucket. -/
theorem mem_testLines_iff {l : SourceLine} (h : l ∈ retainedLines options texts) (fold : Nat) :
    l ∈ testLines options texts fold ↔ l.bucket = fold := by
  rw [testLines, List.mem_filter, and_iff_right h, decide_eq_true_iff]

/-- It is for training in all other folds. -/
theorem mem_trainLines_iff {l : SourceLine} (h : l ∈ retainedLines options texts) (fold : Nat) :
    l ∈ trainLines options texts fold ↔ l.bucket ≠ fold := by
  rw [trainLines, List.mem_filter, and_iff_right h, decide_eq_true_iff]

/-- The lines of one of some different buckets. -/
theorem filter_bucket_flatMap {bs : List Nat} (hdifferent : bs.Nodup) {bucket : Nat}
    (hbucket : bucket ∈ bs) :
    (bs.flatMap (bucketLines choose texts)).filter (fun l => l.bucket = bucket) =
      bucketLines choose texts bucket := by
  induction bs with
  | nil => exact absurd hbucket List.not_mem_nil
  | cons b bs ih =>
    obtain ⟨hb, hdifferent⟩ := List.nodup_cons.mp hdifferent
    rw [List.flatMap_cons, List.filter_append]
    by_cases heq : b = bucket
    · have hfirst : (bucketLines choose texts b).filter (fun l => l.bucket = bucket) =
          bucketLines choose texts b := by
        refine List.filter_eq_self.mpr fun l hl => decide_eq_true ?_
        exact (mem_bucketLines_iff.mp hl).1.trans heq
      have hrest : (bs.flatMap (bucketLines choose texts)).filter (fun l => l.bucket = bucket) = [] := by
        refine List.filter_eq_nil_iff.mpr fun l hl hl' => hb ?_
        obtain ⟨b', hb', hl⟩ := List.mem_flatMap.mp hl
        rwa [heq, ← of_decide_eq_true hl', (mem_bucketLines_iff.mp hl).1]
      rw [hfirst, hrest, List.append_nil, heq]
    · have hfirst : (bucketLines choose texts b).filter (fun l => l.bucket = bucket) = [] := by
        refine List.filter_eq_nil_iff.mpr fun l hl hl' => heq ?_
        rw [← of_decide_eq_true hl', (mem_bucketLines_iff.mp hl).1]
      rw [hfirst, List.nil_append]
      exact ih hdifferent ((List.mem_cons.mp hbucket).resolve_left (Ne.symm heq))

/-- **The lines for testing in all folds are the retained lines.** -/
theorem flatMap_testLines :
    (List.range options.buckets).flatMap (testLines options texts) = retainedLines options texts :=
  List.flatMap_congr fun _ hfold => filter_bucket_flatMap List.nodup_range hfold

/-- Every retained line is for training or for testing. -/
theorem length_trainLines_add (fold : Nat) :
    (trainLines options texts fold).length + (testLines options texts fold).length =
      (retainedLines options texts).length := by
  have h := List.length_eq_length_filter_add (l := retainedLines options texts)
    fun l => decide (l.bucket = fold)
  have htrain : trainLines options texts fold =
      (retainedLines options texts).filter fun l => !decide (l.bucket = fold) := by
    refine List.filter_congr fun l _ => ?_
    exact decide_not
  rw [htrain, testLines]
  omega

theorem length_flatMap_fileLines (n : Nat) (texts : Nat → Category → String)
    (sources : List (Nat × Category)) :
    (sources.flatMap (fileLines (fun _ => filledTexts) texts)).length =
      (sources.flatMap (fileLines (retainedTexts n) texts)).length
        + (sources.flatMap (fileLines (fun _ => omittedTexts) texts)).length
        + (sources.flatMap (fileLines (skippedTexts n) texts)).length := by
  induction sources with
  | nil => rfl
  | cons source sources ih =>
    have hfile := length_filledTexts n source.2 (texts source.1 source.2)
    simp only [List.flatMap_cons, List.length_append, length_fileLines] at ih ⊢
    omega

/-- Every line is retained, omitted or skipped. -/
theorem length_filledLines :
    (filledLines options texts).length =
      (retainedLines options texts).length + (omittedLines options texts).length
        + (skippedLines options texts).length := by
  have h := length_flatMap_fileLines (max options.sampleEvery 1) texts (foldSources options.buckets)
  rwa [flatMap_foldSources, flatMap_foldSources, flatMap_foldSources, flatMap_foldSources] at h

end Lines

/-! ## Folds -/

/-- The fold that some lines make, each of them for testing or for training. -/
def splitLines (lines : List SourceLine) (omitted skipped : Nat) : Fold :=
  { train := (lines.filter fun l => l.bucket ≠ fold).map SourceLine.toFoldLine
    test := (lines.filter fun l => l.bucket = fold).map SourceLine.toFoldLine
    omitted := omitted
    skipped := skipped }

/-- The fold that is made of the files of all buckets. -/
def splitFold : Fold :=
  splitLines fold (retainedLines options texts) (omittedLines options texts).length
    (skippedLines options texts).length

theorem stats_splitFold :
    (splitFold options texts fold).stats =
      { train := (trainLines options texts fold).length
        test := (testLines options texts fold).length
        omitted := (omittedLines options texts).length
        skipped := (skippedLines options texts).length } := by
  rw [Fold.stats, splitFold, splitLines, List.length_map, List.length_map]
  rfl

section Folds

variable {texts} {options} {fold}

/-- Adds what is retained of the file of a bucket and a category to a fold. -/
def Fold.addFile (n : Nat) (texts : Nat → Category → String) (fold : Nat) (f : Fold)
    (source : Nat × Category) : Fold :=
  f.add (source.1 = fold) source.2 (sift source.2 n (texts source.1 source.2))

/-- The lines of a file are all for testing or all for training. -/
theorem filter_bucket_fileLines {choose : Category → String → List String} (p : Nat → Bool)
    (source : Nat × Category) :
    (fileLines choose texts source).filter (fun l => p l.bucket) =
      if p source.1 then fileLines choose texts source else [] := by
  split
  next h =>
    refine List.filter_eq_self.mpr fun l hl => ?_
    rw [(mem_fileLines_iff.mp hl).1, h]
  next h =>
    refine List.filter_eq_nil_iff.mpr fun l hl => ?_
    rwa [(mem_fileLines_iff.mp hl).1]

/-- Adding a file to a fold is splitting its lines as well. -/
theorem addFile_splitLines (hn : 0 < n) (lines : List SourceLine) (omitted skipped : Nat)
    (source : Nat × Category) :
    (splitLines fold lines omitted skipped).addFile n texts fold source =
      splitLines fold (lines ++ fileLines (retainedTexts n) texts source)
        (omitted + (fileLines (fun _ => omittedTexts) texts source).length)
        (skipped + (fileLines (skippedTexts n) texts source).length) := by
  have hlines : (sift source.2 n (texts source.1 source.2)).kept.map (FoldLine.mk source.2) =
      (fileLines (retainedTexts n) texts source).map SourceLine.toFoldLine := by
    rw [kept_sift hn, fileLines, List.map_map]
    rfl
  rw [Fold.addFile, Fold.add, hlines, omitted_sift, skipped_sift hn, splitLines, splitLines,
    List.filter_append, List.filter_append, filter_bucket_fileLines (fun b => b ≠ fold),
    filter_bucket_fileLines (fun b => b = fold), List.map_append, List.map_append, length_fileLines,
    length_fileLines]
  by_cases h : source.1 = fold
  · simp only [h, decide_true, if_true, ne_eq, not_true, decide_false, Bool.false_eq_true, if_false,
      List.map_nil, List.append_nil]
  · simp only [h, decide_false, Bool.false_eq_true, if_false, ne_eq, not_false_iff, decide_true,
      if_true, List.map_nil, List.append_nil]

theorem foldl_addFile (hn : 0 < n) (texts : Nat → Category → String) (fold : Nat)
    (lines : List SourceLine) (omitted skipped : Nat) (sources : List (Nat × Category)) :
    sources.foldl (Fold.addFile n texts fold) (splitLines fold lines omitted skipped) =
      splitLines fold (lines ++ sources.flatMap (fileLines (retainedTexts n) texts))
        (omitted + (sources.flatMap (fileLines (fun _ => omittedTexts) texts)).length)
        (skipped + (sources.flatMap (fileLines (skippedTexts n) texts)).length) := by
  induction sources generalizing lines omitted skipped with
  | nil => rw [List.foldl_nil, List.flatMap_nil, List.append_nil, List.flatMap_nil, List.flatMap_nil]; rfl
  | cons source sources ih =>
    rw [List.foldl_cons, addFile_splitLines hn, ih]
    simp only [List.flatMap_cons, List.append_assoc, List.length_append, Nat.add_assoc]

/-- **A fold has the retained lines, split by their buckets.** -/
theorem foldl_addFile_foldSources :
    (foldSources options.buckets).foldl (Fold.addFile (max options.sampleEvery 1) texts fold) .empty =
      splitFold options texts fold := by
  have hpositive : 0 < max options.sampleEvery 1 := by omega
  have h := foldl_addFile hpositive texts fold [] 0 0 (foldSources options.buckets)
  rw [flatMap_foldSources, flatMap_foldSources, flatMap_foldSources, List.nil_append, Nat.zero_add,
    Nat.zero_add] at h
  exact h

end Folds

end RepairCorpus
