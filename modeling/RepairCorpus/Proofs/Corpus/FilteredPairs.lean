import RepairCorpus.Corpus.Filter
import RepairCorpus.Proofs.Files.Runs
import RepairCorpus.Proofs.Files.WrittenFiles
import RepairCorpus.Proofs.Text.Lines

/-!
# Filtered pairs

The filter looks at two files line by line and keeps a position if both lines there are short enough.  What
it writes is described by these positions, so that the two outputs belong together line by line.  Both inputs
have been read, and have been found to belong together, before anything is made: so it does not matter whether
an output takes the place of an input, and nothing is touched if the inputs do not belong together.

* `KeptAt`: the positions that are kept.
* `exists_keptAt`: what the filter keeps are the lines at these positions.
* `Corpus.exists_runs_createOutput`: making an output.
* `Corpus.filterPair_keeps_alignment`: **the outputs have the lines at the positions where both are short
  enough**, and files that do not have equally many lines are refused before anything is made.
-/

namespace RepairCorpus

open Files (Directory Location FilePath)
open Files.Directory (Rewritten)
open Work (Runs PlaceAt)

/-! ## Positions -/

/-- `KeptAt maxLength buggy correct is` holds if `is` are the positions at which both sides have a line that
is short enough, in ascending order. -/
structure KeptAt (maxLength : Nat) (buggy correct : List String) (is : List Nat) : Prop where
  ascending : is.Pairwise (· < ·)
  mem_iff : ∀ i, i ∈ is ↔ ∃ b c, buggy[i]? = some b ∧ correct[i]? = some c ∧
    lineLength b ≤ maxLength ∧ lineLength c ≤ maxLength

theorem isShort_iff {maxLength : Nat} {b c : String} :
    isShort maxLength (b, c) = true ↔ lineLength b ≤ maxLength ∧ lineLength c ≤ maxLength := by
  rw [isShort, Bool.and_eq_true, decide_eq_true_iff, decide_eq_true_iff]

/-- **What the filter keeps** are the lines at the positions at which both sides are short enough. -/
theorem exists_keptAt (maxLength : Nat) (buggy correct : List String) :
    ∃ is, KeptAt maxLength buggy correct is ∧
      (shortPairs maxLength buggy correct).map (fun p => some p.1) = is.map (buggy[·]?) ∧
      (shortPairs maxLength buggy correct).map (fun p => some p.2) = is.map (correct[·]?) := by
  -- The pairs are kept together with their positions.
  have hpairs : shortPairs maxLength buggy correct =
      ((buggy.zip correct).zipIdx.filter fun x => isShort maxLength x.1).map Prod.fst := by
    have h := List.filter_map (p := isShort maxLength) (f := Prod.fst) (l := (buggy.zip correct).zipIdx)
    rwa [List.zipIdx_map_fst] at h
  have hat {x : (String × String) × Nat}
      (hx : x ∈ (buggy.zip correct).zipIdx.filter fun x => isShort maxLength x.1) :
      buggy[x.2]? = some x.1.1 ∧ correct[x.2]? = some x.1.2 :=
    List.getElem?_zip_eq_some.mp (List.mem_zipIdx_iff_getElem?.mp (List.mem_filter.mp hx).1)
  refine ⟨((buggy.zip correct).zipIdx.filter fun x => isShort maxLength x.1).map Prod.snd, ⟨?_, ?_⟩, ?_, ?_⟩
  · refine List.Pairwise.sublist (List.filter_sublist.map Prod.snd) ?_
    rw [List.zipIdx_map_snd]
    exact List.pairwise_lt_range'
  · intro i
    constructor
    · intro hi
      obtain ⟨⟨⟨b, c⟩, j⟩, hx, rfl⟩ := List.mem_map.mp hi
      exact ⟨b, c, (hat hx).1, (hat hx).2, isShort_iff.mp (List.mem_filter.mp hx).2⟩
    · rintro ⟨b, c, hb, hc, hshort⟩
      refine List.mem_map.mpr ⟨((b, c), i), List.mem_filter.mpr ⟨?_, isShort_iff.mpr hshort⟩, rfl⟩
      exact List.mem_zipIdx_iff_getElem?.mpr (List.getElem?_zip_eq_some.mpr ⟨hb, hc⟩)
  · rw [hpairs, List.map_map, List.map_map]
    exact List.map_congr_left fun x hx => (hat hx).1.symm
  · rw [hpairs, List.map_map, List.map_map]
    exact List.map_congr_left fun x hx => (hat hx).2.symm

/-- There are not more positions than lines. -/
theorem length_shortPairs_le (maxLength : Nat) (buggy correct : List String) :
    (shortPairs maxLength buggy correct).length ≤ buggy.length := by
  have hfilter := List.length_filter_le (isShort maxLength) (buggy.zip correct)
  rw [List.length_zip] at hfilter
  rw [shortPairs]
  omega

namespace Corpus

variable {d : Directory} {buggy correct out input name buggyText correctText buggyName correctName : String}
  {k : Location} {maxLength : Nat}

/-! ## Outputs -/

/-- **An output is made**, and nothing else changes. -/
theorem exists_runs_createOutput (hout : PlaceAt d out k) (hname : Files.fileName? input = some name)
    (hfree : d.at? (k ++ [name]) ≠ some .directory) :
    ∃ d', Runs (createOutput out input) d (Files.join out name) d' ∧
      Rewritten (fun l => l = k ++ [name]) d d' ∧ d'.at? (k ++ [name]) = some (.file (.text "")) := by
  obtain ⟨d', hmade, hrewritten, hempty⟩ := hout.exists_runs_create (a := .createFile)
    (FilePath.join_fileName out hname) hfree
  refine ⟨d', ?_, hrewritten, hempty⟩
  rw [createOutput, hname]
  exact hmade.bind (Runs.pure _ d')

/-- The directory of an output that can be made, and what is free in it. -/
theorem exists_placeAt (hname : Files.fileName? input = some name)
    (hmade : d.canCreate (Files.join out name) = true) :
    ∃ k, PlaceAt d out k ∧ d.at? (k ++ [name]) ≠ some .directory := by
  obtain ⟨k, hwalk, hk, hfree⟩ := (Directory.canCreate_iff (FilePath.join_fileName out hname)).mp hmade
  exact ⟨k, ⟨hwalk, hk⟩, hfree⟩

/-! ## Filtering -/

/-- **Both outputs are made and then written**, and nothing else changes. -/
theorem exists_runs_filterPair {kept : List (String × String)} (hbuggy : d.read buggy = .ok buggyText)
    (hcorrect : d.read correct = .ok correctText)
    (hkept : shortPairs maxLength (Text.lines buggyText) (Text.lines correctText) = kept)
    (hlengths : (Text.lines buggyText).length = (Text.lines correctText).length)
    (hbuggyName : Files.fileName? buggy = some buggyName)
    (hcorrectName : Files.fileName? correct = some correctName) (hnames : buggyName ≠ correctName)
    (hout : PlaceAt d out k) (hbuggyFree : d.at? (k ++ [buggyName]) ≠ some .directory)
    (hcorrectFree : d.at? (k ++ [correctName]) ≠ some .directory) :
    ∃ d', Runs (filterPair buggy correct out maxLength) d
        ⟨kept.length, (Text.lines buggyText).length - kept.length⟩ d' ∧
      Rewritten (fun l => l = k ++ [buggyName] ∨ l = k ++ [correctName]) d d' ∧
      d'.at? (k ++ [buggyName]) = some (.file (.text (Text.unlines (kept.map Prod.fst)))) ∧
      d'.at? (k ++ [correctName]) = some (.file (.text (Text.unlines (kept.map Prod.snd)))) := by
  have hplaces : k ++ [correctName] ≠ k ++ [buggyName] := fun heq =>
    hnames (List.cons.inj (List.append_cancel_left heq)).1.symm
  -- Making the second output leaves the first one empty, and writing the first one leaves the second empty.
  obtain ⟨d₁, hmade₁, h₁, hempty₁⟩ := exists_runs_createOutput hout hbuggyName hbuggyFree
  have hout₁ := hout.rewritten h₁
  have hcorrectFree₁ : d₁.at? (k ++ [correctName]) ≠ some .directory := by
    rw [h₁.others _ hplaces]
    exact hcorrectFree
  obtain ⟨d₂, hmade₂, h₂, hempty₂⟩ := exists_runs_createOutput hout₁ hcorrectName hcorrectFree₁
  have hout₂ := hout₁.rewritten h₂
  obtain ⟨d₃, hwritten₃, h₃, htext₃⟩ := hout₂.exists_runs_overwrite (a := .flushFile)
    (Text.unlines (kept.map Prod.fst)) (FilePath.join_fileName out hbuggyName)
    ((h₂.others _ hplaces.symm).trans hempty₁)
  obtain ⟨d₄, hwritten₄, h₄, htext₄⟩ := (hout₂.rewritten h₃).exists_runs_overwrite (a := .flushFile)
    (Text.unlines (kept.map Prod.snd)) (FilePath.join_fileName out hcorrectName)
    ((h₃.others _ hplaces).trans hempty₂)
  refine ⟨d₄, ?_, ?_, (h₄.others _ hplaces.symm).trans htext₃, htext₄⟩
  · rw [filterPair]
    refine (Runs.attempt_read hbuggy).bind ((Runs.attempt_read hcorrect).bind ?_)
    dsimp only
    rw [if_neg (not_not.mpr hlengths), hkept]
    exact hmade₁.bind (hmade₂.bind (hwritten₃.bind (hwritten₄.bind (Runs.pure _ d₄))))
  · have hfirst := h₁.mono fun l => Or.inl (b := l = k ++ [correctName])
    have hsecond := h₂.mono fun l => Or.inr (a := l = k ++ [buggyName])
    have hthird := h₃.mono fun l => Or.inl (b := l = k ++ [correctName])
    have hfourth := h₄.mono fun l => Or.inr (a := l = k ++ [buggyName])
    exact hfirst.trans (hsecond.trans (hthird.trans hfourth))

/-- **Files that do not have equally many lines are refused**, and nothing is made. -/
theorem run_filterPair_of_ne (out : String) (maxLength : Nat) (hbuggy : d.read buggy = .ok buggyText)
    (hcorrect : d.read correct = .ok correctText)
    (hlengths : (Text.lines buggyText).length ≠ (Text.lines correctText).length) :
    (ExceptT.run (filterPair buggy correct out maxLength : Work (StateM Directory) FilterStats)).run d =
      (.error (.unequalLengths buggy (Text.lines buggyText).length correct
        (Text.lines correctText).length), d) := by
  have hreadBuggy : Runs (Work.attempt .readFile buggy (Storage.read buggy)) d buggyText d :=
    Runs.attempt_read hbuggy
  have hreadCorrect : Runs (Work.attempt .readFile correct (Storage.read correct)) d correctText d :=
    Runs.attempt_read hcorrect
  rw [filterPair, hreadBuggy.run_bind, hreadCorrect.run_bind]
  dsimp only
  rw [if_pos hlengths]
  rfl

/-- `HasLinesAt d path lines is` holds if a file has the lines at some positions and nothing else, each with
a line feed behind it, so that they are read again but for a carriage return at their ends. -/
def HasLinesAt (d : Directory) (path : String) (lines : List String) (is : List Nat) : Prop :=
  ∃ kept, kept.map some = is.map (lines[·]?) ∧ d.read path = .ok (Text.unlines kept) ∧
    Text.lines (Text.unlines kept) = kept.map Text.withoutReturn

/-- A file with lines of a text at some positions. -/
theorem hasLinesAt_of_lines {text : String} {is : List Nat} {kept : List String}
    (hkept : kept.map some = is.map ((Text.lines text)[·]?))
    (hout : PlaceAt d out k) (hname : Files.fileName? input = some name)
    (hat : d.at? (k ++ [name]) = some (.file (.text (Text.unlines kept)))) :
    HasLinesAt d (Files.join out name) (Text.lines text) is := by
  refine ⟨kept, hkept, hout.read_join (FilePath.join_fileName out hname) hat, ?_⟩
  refine Text.lines_unlines_of_noFeed fun l hl => ?_
  have hsome : some l ∈ is.map ((Text.lines text)[·]?) := hkept ▸ List.mem_map_of_mem hl
  obtain ⟨i, -, hi⟩ := List.mem_map.mp hsome
  exact Text.newline_notMem_of_mem_lines (List.mem_of_getElem? hi)

/-- **A filtered pair keeps its alignment.**  Take two files with different names that can be read, and a
directory where outputs with these names can be made; it may be that of the inputs.  If the files have equally
many lines, the outputs have the lines at the positions at which both are short enough, in this order, and
nothing else changes; so many pairs of lines are kept, and the others are dropped.  If they do not, they are
refused and nothing changes at all. -/
theorem filterPair_keeps_alignment (out : String) (maxLength : Nat)
    (hbuggy : d.read buggy = .ok buggyText) (hcorrect : d.read correct = .ok correctText)
    (hbuggyName : Files.fileName? buggy = some buggyName)
    (hcorrectName : Files.fileName? correct = some correctName) (hnames : buggyName ≠ correctName) :
    ((Text.lines buggyText).length = (Text.lines correctText).length →
      d.canCreate (Files.join out buggyName) = true → d.canCreate (Files.join out correctName) = true →
      ∃ is stats d', Runs (filterPair buggy correct out maxLength) d stats d' ∧
        KeptAt maxLength (Text.lines buggyText) (Text.lines correctText) is ∧
        HasLinesAt d' (Files.join out buggyName) (Text.lines buggyText) is ∧
        HasLinesAt d' (Files.join out correctName) (Text.lines correctText) is ∧
        stats.kept = is.length ∧ stats.kept + stats.dropped = (Text.lines buggyText).length ∧
        Rewritten (fun l => d.locate (Files.join out buggyName) = .ok l ∨
          d.locate (Files.join out correctName) = .ok l) d d') ∧
    ((Text.lines buggyText).length ≠ (Text.lines correctText).length →
      (ExceptT.run (filterPair buggy correct out maxLength : Work (StateM Directory) FilterStats)).run d =
        (.error (.unequalLengths buggy (Text.lines buggyText).length correct
          (Text.lines correctText).length), d)) := by
  refine ⟨fun hlengths hbuggyOut hcorrectOut => ?_, run_filterPair_of_ne out maxLength hbuggy hcorrect⟩
  obtain ⟨k, hout, hbuggyFree⟩ := exists_placeAt hbuggyName hbuggyOut
  obtain ⟨k', hout', hcorrectFree⟩ := exists_placeAt hcorrectName hcorrectOut
  cases hout.walk.symm.trans hout'.walk
  obtain ⟨is, hat, hbuggyKept, hcorrectKept⟩ :=
    exists_keptAt maxLength (Text.lines buggyText) (Text.lines correctText)
  generalize hkept : shortPairs maxLength (Text.lines buggyText) (Text.lines correctText) = kept
    at hbuggyKept hcorrectKept
  obtain ⟨d', hrun, hrewritten, hbuggyAt, hcorrectAt⟩ := exists_runs_filterPair hbuggy hcorrect hkept
    hlengths hbuggyName hcorrectName hnames hout hbuggyFree hcorrectFree
  have hout' := hout.rewritten hrewritten
  have hcount : kept.length = is.length := by
    simpa using congrArg List.length hbuggyKept
  have hle : kept.length ≤ (Text.lines buggyText).length := hkept ▸ length_shortPairs_le _ _ _
  refine ⟨is, _, d', hrun, hat, hasLinesAt_of_lines ?_ hout' hbuggyName hbuggyAt,
    hasLinesAt_of_lines ?_ hout' hcorrectName hcorrectAt, hcount, Nat.add_sub_cancel' hle, ?_⟩
  · rw [List.map_map, ← hbuggyKept]
    rfl
  · rw [List.map_map, ← hcorrectKept]
    rfl
  · refine hrewritten.mono fun l hl => hl.imp ?_ ?_
    · rintro rfl
      exact hout.locate_join (FilePath.join_fileName out hbuggyName)
    · rintro rfl
      exact hout.locate_join (FilePath.join_fileName out hcorrectName)

/-- The lines of one side; the last one is empty. -/
def buggyThree : String := "a b\na b c d\n\n"

/-- The lines of the other side; the last one has no line feed behind it. -/
def correctThree : String := "a\nb\nx"

/-- Two files with three pairs of lines. -/
def threePairs : Directory :=
  ⟨[(["seq-nominal0.buggy"], .file (.text buggyThree)),
    (["seq-nominal0.correct"], .file (.text correctThree))]⟩

theorem read_threePairs : threePairs.read "seq-nominal0.buggy" = .ok buggyThree ∧
    threePairs.read "seq-nominal0.correct" = .ok correctThree :=
  ⟨rfl, rfl⟩

theorem fileName?_threePairs :
    Files.fileName? "seq-nominal0.buggy" = some "seq-nominal0.buggy" ∧
      Files.fileName? "seq-nominal0.correct" = some "seq-nominal0.correct" := by
  decide

theorem canCreate_threePairs :
    threePairs.canCreate (Files.join "." "seq-nominal0.buggy") = true ∧
      threePairs.canCreate (Files.join "." "seq-nominal0.correct") = true :=
  ⟨rfl, rfl⟩

/-- The pairs are filtered in place. -/
theorem filterPair_keeps_alignment_threePairs :
    ∃ is stats d', Runs (filterPair "seq-nominal0.buggy" "seq-nominal0.correct" "." 3) threePairs stats d' ∧
      KeptAt 3 (Text.lines buggyThree) (Text.lines correctThree) is ∧
      HasLinesAt d' (Files.join "." "seq-nominal0.buggy") (Text.lines buggyThree) is ∧
      HasLinesAt d' (Files.join "." "seq-nominal0.correct") (Text.lines correctThree) is ∧
      stats.kept = is.length ∧ stats.kept + stats.dropped = (Text.lines buggyThree).length ∧
      Rewritten (fun l => threePairs.locate (Files.join "." "seq-nominal0.buggy") = .ok l ∨
        threePairs.locate (Files.join "." "seq-nominal0.correct") = .ok l) threePairs d' :=
  (filterPair_keeps_alignment "." 3 read_threePairs.1 read_threePairs.2 fileName?_threePairs.1
    fileName?_threePairs.2 (by decide)).1 rfl canCreate_threePairs.1 canCreate_threePairs.2

end Corpus

end RepairCorpus
