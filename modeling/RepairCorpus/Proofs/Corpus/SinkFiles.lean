import RepairCorpus.Corpus.Sink
import RepairCorpus.Proofs.Corpus.FirstSight
import RepairCorpus.Proofs.Corpus.SequencePaths
import RepairCorpus.Proofs.Files.OutputPlaces

/-!
# Files of a sink

Sequences of all categories and buckets come to a sink in one stream, and the sink sorts them into files
that it makes when they are first needed.  What has become of a stream does not depend on how its parts
are interleaved: the files are those that some sequence of the stream belongs to, in the order of first
sight, and each has the lines of the sequences that belong to it, in the order of the stream.

* `Addition`: a sequence with the file it belongs to.
* `linesOf`, `keysOf`, `filesOf`: what a stream comes to.
* `Sink.succeeds_addAll`: **adding a stream comes to its files**, made but empty.
* `Sink.succeeds_run`: **a run of a sink writes the lines of a stream to their files**, and changes
  nothing else.
* `HoldsAll.read`, `HoldsAll.has_eq_false`, `HoldsAll.at?_of_notMem`: what can be read then, what is not
  there, and what is as before.
-/

namespace RepairCorpus

open Files (Directory Location FilePath OutputAt)
open Files.Directory (Rewritten)
open Work (Succeeds)

/-- A sequence with the file it belongs to. -/
structure Addition where
  key : SequenceKey
  tokens : List Token
  deriving DecidableEq

/-- The lines that a stream of sequences has for a file. -/
def linesOf (f : SequenceKey) (as : List Addition) : List String :=
  (as.filter fun a => a.key = f).map fun a => lineOf a.tokens

/-- The files that a stream has sequences for, in the order of first sight. -/
def keysOf (as : List Addition) : List SequenceKey := (as.map Addition.key).eraseDups

/-- The files of a sink to which a stream has been added. -/
def filesOf (start : String) (as : List Addition) : List (String × List String) :=
  (keysOf as).map fun f => (f.path start, (linesOf f as).reverse)

variable {start : String} {as : List Addition} {a : Addition} {f g : SequenceKey}

/-! ## Streams -/

theorem linesOf_concat (f : SequenceKey) (as : List Addition) (a : Addition) :
    linesOf f (as ++ [a]) = if a.key = f then linesOf f as ++ [lineOf a.tokens] else linesOf f as := by
  rw [linesOf, List.filter_append, List.map_append]
  split
  next h =>
    rw [List.filter_cons_of_pos (by simpa using h)]
    rfl
  next h =>
    rw [List.filter_cons_of_neg (by simpa using h)]
    exact List.append_nil _

/-- A stream has sequences for a file if the file has lines. -/
theorem mem_keysOf_iff : f ∈ keysOf as ↔ linesOf f as ≠ [] := by
  rw [keysOf, List.mem_eraseDups, List.mem_map, linesOf, Ne, List.map_eq_nil_iff,
    List.filter_eq_nil_iff]
  simp only [decide_eq_true_eq, not_forall, not_not, exists_prop]

theorem keysOf_concat (as : List Addition) (a : Addition) :
    keysOf (as ++ [a]) = if a.key ∈ keysOf as then keysOf as else keysOf as ++ [a.key] := by
  rw [keysOf, List.map_append, List.map_singleton, eraseDups_concat]
  simp only [keysOf, List.mem_eraseDups]

/-! ## The list of files -/

namespace Sink

/-- A line goes to the file with its path. -/
theorem addTo_map (start line : String) (f : SequenceKey) {fs : List SequenceKey} (h : fs.Nodup)
    (lines : SequenceKey → List String) :
    addTo (f.path start) line (fs.map fun g => (g.path start, lines g)) =
      fs.map fun g => (g.path start, if g = f then line :: lines g else lines g) := by
  induction fs with
  | nil => rfl
  | cons g fs ih =>
    obtain ⟨hnew, hrest⟩ := List.nodup_cons.mp h
    rw [List.map_cons, List.map_cons, addTo]
    by_cases hg : g = f
    · have hothers : ∀ g' ∈ fs, (g'.path start, lines g') =
          (g'.path start, if g' = f then line :: lines g' else lines g') := by
        intro g' hg'
        rw [if_neg]
        rintro rfl
        exact hnew (hg ▸ hg')
      rw [if_pos (congrArg _ hg), if_pos hg, List.map_congr_left hothers]
    · rw [if_neg fun hpath => hg (SequenceKey.path_inj hpath), if_neg hg, ih hrest]

theorem isNone_lookup_filesOf (start : String) (f : SequenceKey) (as : List Addition) :
    ((filesOf start as).lookup (f.path start)).isNone = decide (f ∉ keysOf as) := by
  rw [filesOf]
  generalize keysOf as = fs
  induction fs with
  | nil => rfl
  | cons g fs ih =>
    rw [List.map_cons, List.lookup_cons]
    by_cases hg : f = g
    · rw [hg, beq_self_eq_true]
      simp
    · have hpath : (f.path start == g.path start) = false :=
        beq_eq_false_iff_ne.mpr fun hpath => hg (SequenceKey.path_inj hpath)
      rw [hpath]
      simp only [ih, List.mem_cons, hg, false_or]

/-- **One more sequence**: its file is made if it is new, and its line is added. -/
theorem addTo_filesOf (start : String) (as : List Addition) (a : Addition) :
    addTo (a.key.path start) (lineOf a.tokens)
        (if a.key ∈ keysOf as then filesOf start as else filesOf start as ++ [(a.key.path start, [])]) =
      filesOf start (as ++ [a]) := by
  have hmade : (if a.key ∈ keysOf as then filesOf start as
      else filesOf start as ++ [(a.key.path start, [])]) =
      (keysOf (as ++ [a])).map fun f => (f.path start, (linesOf f as).reverse) := by
    rw [keysOf_concat]
    split
    next => rfl
    next h =>
      have hnone : linesOf a.key as = [] := by
        by_contra hne
        exact h (mem_keysOf_iff.mpr hne)
      rw [List.map_append, List.map_singleton, hnone]
      rfl
  have hnodup : (keysOf (as ++ [a])).Nodup := nodup_eraseDups _
  rw [hmade, addTo_map start _ a.key hnodup, filesOf]
  refine List.map_congr_left fun f _ => ?_
  rw [linesOf_concat]
  by_cases hf : f = a.key
  · rw [if_pos hf, if_pos hf.symm, List.reverse_append]
    rfl
  · rw [if_neg hf, if_neg (Ne.symm hf)]

end Sink

/-! ## Places -/

/-- The place of a sequence file in the directory of a run. -/
def placeOf (start : String) (k : Location) (f : SequenceKey) : Location :=
  k ++ [Files.nameFront start ++ f.tail]

variable {d d' d'' d₁ : Directory} {k l : Location} {fs : List SequenceKey}

/-- Different files have different names, whatever directories they are in. -/
theorem placeOf_inj (h : placeOf start k f = placeOf start l g) : f = g := by
  obtain ⟨-, hname⟩ := List.append_inj' h rfl
  have htail := congrArg String.toList (List.cons.inj hname).1
  rw [String.toList_append, String.toList_append] at htail
  exact SequenceKey.tail_inj (String.toList_injective (List.append_cancel_left htail))

theorem placeOf_ne_nil : placeOf start k f ≠ [] :=
  List.append_ne_nil_of_right_ne_nil k (List.cons_ne_nil _ _)

/-- `HoldsAll start k fs text d d'` holds if `d'` is `d` but for the files `fs`, of which each holds its
text. -/
structure HoldsAll (start : String) (k : Location) (fs : List SequenceKey) (text : SequenceKey → String)
    (d d' : Directory) : Prop where
  rewritten : Rewritten (fun l => ∃ f ∈ fs, l = placeOf start k f) d d'
  texts : ∀ f ∈ fs, d'.at? (placeOf start k f) = some (.file (.text (text f)))

namespace HoldsAll

variable {text : SequenceKey → String}

theorem nil (d : Directory) : HoldsAll start k [] text d d := ⟨Rewritten.refl _ d, nofun⟩

/-- One more file is written. -/
theorem put (h : HoldsAll start k fs text d d') (hfree : d'.at? (placeOf start k f) ≠ some .directory) :
    HoldsAll start k (fs ++ [f]) text d (d'.put (placeOf start k f) (.file (.text (text f)))) where
  rewritten := by
    refine (h.rewritten.mono ?_).trans ((Directory.rewritten_put placeOf_ne_nil hfree).mono ?_)
    · rintro l ⟨g, hg, rfl⟩
      exact ⟨g, List.mem_append_left _ hg, rfl⟩
    · rintro l rfl
      exact ⟨f, List.mem_append_right _ (.head _), rfl⟩
  texts g hg := by
    rw [Directory.at?_put _ _ _ _ placeOf_ne_nil]
    split
    next heq => rw [placeOf_inj heq]
    next hne =>
      rcases List.mem_append.mp hg with hg | hg
      · exact h.texts g hg
      · exact absurd (congrArg _ (List.mem_singleton.mp hg)) hne

/-- Files that are not among them are as before. -/
theorem at?_of_notMem (h : HoldsAll start k fs text d d') (hf : f ∉ fs) :
    d'.at? (placeOf start k f) = d.at? (placeOf start k f) := by
  refine h.rewritten.others _ ?_
  rintro ⟨g, hg, heq⟩
  exact hf (placeOf_inj heq ▸ hg)

theorem walk (h : HoldsAll start k fs text d d') {ns : List String} (hwalk : d.walk [] ns = .ok k) :
    d'.walk [] ns = .ok k :=
  h.rewritten.walk_iff.mpr hwalk

theorem directory (h : HoldsAll start k fs text d d') (hk : d.at? k = some .directory) :
    d'.at? k = some .directory :=
  (h.rewritten.directories k).mpr hk

theorem locate (h : HoldsAll start k fs text d d')
    (hwalk : d.walk [] (Files.namesAbove start) = .ok k) (hk : d.at? k = some .directory)
    (f : SequenceKey) : d'.locate (f.path start) = .ok (placeOf start k f) :=
  (Directory.locate_eq_ok_iff (f.filePath start)).mpr ⟨k, h.walk hwalk, h.directory hk, rfl⟩

/-- A file among them can be read. -/
theorem read (h : HoldsAll start k fs text d d') (hwalk : d.walk [] (Files.namesAbove start) = .ok k)
    (hk : d.at? k = some .directory) (hf : f ∈ fs) : d'.read (f.path start) = .ok (text f) := by
  refine Directory.read_eq_ok_iff.mpr ⟨.text (text f), ?_, rfl⟩
  exact Directory.status_eq_ok_iff.mpr ⟨_, h.locate hwalk hk f, h.texts f hf⟩

/-- Nothing is where another file would be, if nothing was there before. -/
theorem has_eq_false (h : HoldsAll start k fs text d d')
    (hwalk : d.walk [] (Files.namesAbove start) = .ok k) (hk : d.at? k = some .directory) (hf : f ∉ fs)
    (hnone : d.at? (placeOf start k f) = none) : d'.has (f.path start) = false := by
  refine Bool.eq_false_iff.mpr fun hhas => ?_
  obtain ⟨e, he⟩ := Directory.has_iff.mp hhas
  obtain ⟨l, hl, hat⟩ := Directory.status_eq_ok_iff.mp he
  rw [h.locate hwalk hk f] at hl
  cases hl
  rw [h.at?_of_notMem hf, hnone] at hat
  cases hat

end HoldsAll

/-! ## Runs of a sink -/

namespace Sink

variable {m : Type → Type} [Monad m] [Storage m] {ρ : Type} [Hosted m ρ] {r : ρ}

/-- Flushing writes the lines of all files. -/
theorem succeeds_flushFiles (done : List SequenceKey) (lines : SequenceKey → List String)
    (hwalk : d.walk [] (Files.namesAbove start) = .ok k) (hk : d.at? k = some .directory)
    (hdifferent : (done ++ fs).Nodup)
    (hdone : HoldsAll start k done (fun f => Text.unlines (lines f).reverse) d d')
    (hempty : ∀ f ∈ fs, d.at? (placeOf start k f) = some (.file .empty)) :
    ∃ d'', Succeeds (flushFiles (fs.map fun f => (f.path start, lines f)) : Work m Unit) r d' () r d'' ∧
      HoldsAll start k (done ++ fs) (fun f => Text.unlines (lines f).reverse) d d'' := by
  induction fs generalizing done d' with
  | nil =>
    rw [List.append_nil]
    exact ⟨d', Succeeds.pure _ _ _, hdone⟩
  | cons f fs ih =>
    have hnew : f ∉ done := fun hf =>
      (List.nodup_append.mp hdifferent).2.2 f hf f (.head _) rfl
    have hempty' : d'.at? (placeOf start k f) = some (.file .empty) := by
      rw [hdone.at?_of_notMem hnew]
      exact hempty f (.head _)
    have hwrite := Succeeds.overwrite (m := m) (r := r) (a := .flushFile)
      (Text.unlines (lines f).reverse) (SequenceKey.filePath start f) (hdone.walk hwalk)
      (hdone.directory hk) hempty'
    have hdone' := hdone.put (f := f) (by rw [hempty']; nofun)
    rw [List.append_cons] at hdifferent
    obtain ⟨d'', hrest, hall⟩ := ih _ hdifferent hdone' fun g hg => hempty g (.tail _ hg)
    rw [← List.append_cons] at hall
    exact ⟨d'', hwrite.bind hrest, hall⟩

variable [LawfulMonad m]

/-- Adds sequences to their files. -/
def addAll : List Addition → SinkWork m Unit
  | [] => return
  | a :: as => do
    addLine a.key.category a.key.bucket a.key.role a.tokens
    addAll as

theorem addAll_append (as bs : List Addition) :
    (addAll (as ++ bs) : SinkWork m Unit) = (do addAll as; addAll bs) := by
  induction as with
  | nil => exact (pure_bind () fun _ => (addAll bs : SinkWork m Unit)).symm
  | cons a as ih =>
    rw [List.cons_append, addAll, ih, addAll, bind_assoc]

/-- Adding a sequence makes its file if it is new, and adds its line. -/
theorem succeeds_addLine (hwalk : d.walk [] (Files.namesAbove start) = .ok k)
    (hk : d.at? k = some .directory) (hmade : HoldsAll start k (keysOf as) (fun _ => "") d d')
    (hfree : d.at? (placeOf start k a.key) ≠ some .directory) :
    ∃ d'', Succeeds (addLine a.key.category a.key.bucket a.key.role a.tokens : SinkWork m Unit)
        (⟨start, filesOf start as⟩, r) d' () (⟨start, filesOf start (as ++ [a])⟩, r) d'' ∧
      HoldsAll start k (keysOf (as ++ [a])) (fun _ => "") d d'' := by
  have hlookup : ((filesOf start as).lookup (sequencePath start a.key.category a.key.bucket
      a.key.role.extension)).isNone = decide (a.key ∉ keysOf as) := isNone_lookup_filesOf start a.key as
  rw [← addTo_filesOf, keysOf_concat]
  by_cases hseen : a.key ∈ keysOf as
  · rw [decide_eq_false (not_not.mpr hseen)] at hlookup
    rw [if_pos hseen, if_pos hseen]
    refine ⟨d', Succeeds.get.bind (Succeeds.get.bind ?_), hmade⟩
    dsimp only
    rw [if_neg (by rw [hlookup]; exact Bool.false_ne_true)]
    exact Succeeds.modify
  · rw [decide_eq_true hseen] at hlookup
    rw [if_neg hseen, if_neg hseen]
    have hfree' : d'.at? (placeOf start k a.key) ≠ some .directory := by
      rw [hmade.at?_of_notMem hseen]
      exact hfree
    refine ⟨_, Succeeds.get.bind (Succeeds.get.bind ?_), hmade.put hfree'⟩
    dsimp only
    rw [if_pos hlookup]
    refine Succeeds.bind (Succeeds.create (SequenceKey.filePath start a.key) (hmade.walk hwalk)
      (hmade.directory hk) hfree') ?_
    exact Succeeds.modify.bind Succeeds.modify

/-- **Adding a stream comes to its files**, made but empty. -/
theorem succeeds_addAll (earlier : List Addition) (hwalk : d.walk [] (Files.namesAbove start) = .ok k)
    (hk : d.at? k = some .directory) (hmade : HoldsAll start k (keysOf earlier) (fun _ => "") d d')
    (hfree : ∀ a ∈ as, d.at? (placeOf start k a.key) ≠ some .directory) :
    ∃ d'', Succeeds (addAll as : SinkWork m Unit) (⟨start, filesOf start earlier⟩, r) d' ()
        (⟨start, filesOf start (earlier ++ as)⟩, r) d'' ∧
      HoldsAll start k (keysOf (earlier ++ as)) (fun _ => "") d d'' := by
  induction as generalizing earlier d' with
  | nil =>
    rw [List.append_nil]
    exact ⟨d', Succeeds.pure _ _ _, hmade⟩
  | cons a as ih =>
    obtain ⟨d₂, hadd, hmade₂⟩ := succeeds_addLine (m := m) (r := r) hwalk hk hmade (hfree a (.head _))
    obtain ⟨d₃, hrest, hmade₃⟩ := ih _ hmade₂ fun a' ha' => hfree a' (.tail _ ha')
    rw [List.append_assoc] at hrest hmade₃
    exact ⟨d₃, hadd.bind hrest, hmade₃⟩

/-- **A run of a sink writes the lines of a stream to their files**, and changes nothing else. -/
theorem succeeds_run {α : Type} {work : SinkWork m α} {x : α} (hwork : work = (do addAll as; return x))
    (hout : OutputAt d start d₁ k)
    (hfree : ∀ a ∈ as, d₁.at? (placeOf start k a.key) ≠ some .directory) :
    ∃ d', Succeeds (Sink.run start work) r d x r d' ∧
      HoldsAll start k (keysOf as) (fun f => Text.unlines (linesOf f as)) d₁ d' := by
  obtain ⟨d₂, hadd, hmade⟩ := succeeds_addAll (m := m) (r := r) [] hout.walk hout.directory
    (HoldsAll.nil d₁) hfree
  rw [List.nil_append] at hadd hmade
  have hempty : ∀ f ∈ keysOf as, d₂.at? (placeOf start k f) = some (.file .empty) := hmade.texts
  obtain ⟨d₃, hflush, hwritten⟩ := succeeds_flushFiles (m := m) (r := r) []
    (fun f => (linesOf f as).reverse) (hmade.walk hout.walk) (hmade.directory hout.directory)
    (nodup_eraseDups _) (HoldsAll.nil d₂) hempty
  simp only [List.reverse_reverse, List.nil_append] at hwritten
  refine ⟨d₃, ?_, ?_, hwritten.texts⟩
  · refine (Succeeds.makeParent hout.made).bind ?_
    rw [hwork]
    refine Succeeds.bind (hadd.bind (Succeeds.pure x _ _)).resultState ?_
    exact Succeeds.bind hflush.result (Succeeds.pure x r d₃)
  · exact hmade.rewritten.trans hwritten.rewritten

end Sink

end RepairCorpus
