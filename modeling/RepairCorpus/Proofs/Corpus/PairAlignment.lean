import RepairCorpus.Proofs.Corpus.SinkFiles
import RepairCorpus.Proofs.Files.WrittenFiles
import RepairCorpus.Proofs.Text.Lines

/-!
# Alignment of pairs

The two sides of a pair are added to their files one after the other, and each of the files is made when it
is first needed.  Whether a file can be made does not depend on the calls before: making files makes and
removes no directory, and nothing else decides it.  So a file either has the lines of all its calls or of
none, with one exception to what a reader of the two files expects: where the file of the second side cannot
be made, the line of the first side has been added all the same, and the call fails behind it.

* `Sink.addPairs`: calls one after the other, whether they succeed or not.
* `Sink.exists_run_addPair`, `Sink.exists_run_addPairs`: what a call and what all calls come to.
* `Sink.exists_runs_flush`: what flushing comes to.
* `Shares`: what the files of a category and a bucket have received then.
* `Sink.pairs_aligned_iff`: **the two files of a category and a bucket are aligned, unless the second cannot
  be made where the first can**.
-/

namespace RepairCorpus

open Files (Directory Location FilePath)
open Files.Directory (Rewritten)
open Work (Succeeds Fails)

/-! ## Calls -/

/-- A call that adds a pair. -/
structure PairCall where
  category : Category
  bucket : Option Nat
  buggy : List Token
  correct : List Token
  deriving DecidableEq

namespace PairCall

/-- The file of one side of the pair. -/
def key (c : PairCall) (role : Role) : SequenceKey := ⟨c.category, c.bucket, role⟩

/-- Whether the pair belongs to a category and a bucket. -/
def concerns (category : Category) (bucket : Option Nat) (c : PairCall) : Bool :=
  c.category = category ∧ c.bucket = bucket

/-- The pair has no line breaks. -/
def Unbroken (c : PairCall) : Prop := ∀ t ∈ c.buggy ++ c.correct, Text.Plain t

instance (c : PairCall) : Decidable c.Unbroken :=
  inferInstanceAs (Decidable (∀ t ∈ c.buggy ++ c.correct, Text.Plain t))

/-- What is added of a pair, where some files can be made and others cannot. -/
def additions (made : SequenceKey → Bool) (c : PairCall) : List Addition :=
  if made (c.key .buggy) then
    ⟨c.key .buggy, c.buggy⟩ ::
      if made (c.key .correct) then [⟨c.key .correct, c.correct⟩] else []
  else []

/-- Only the two sides of a pair are added of it. -/
theorem eq_or_eq_of_mem_additions {made : SequenceKey → Bool} {c : PairCall} {a : Addition}
    (h : a ∈ c.additions made) : a = ⟨c.key .buggy, c.buggy⟩ ∨ a = ⟨c.key .correct, c.correct⟩ := by
  rw [additions] at h
  split at h
  next =>
    refine (List.mem_cons.mp h).imp_right fun h => ?_
    split at h
    next => exact List.mem_singleton.mp h
    next => cases h
  next => cases h

end PairCall

namespace Sink

/-- Adds pairs one after the other, whether that succeeds or not. -/
def addPairs {m : Type → Type} [Monad m] [Storage m] :
    List PairCall → StateT Sink m (List (Except Trouble Unit))
  | [] => return []
  | c :: cs => do
    let result ← ExceptT.run (addPair c.category c.bucket c.buggy c.correct)
    return result :: (← addPairs cs)

/-- The lines that a file has received. -/
def received (s : Sink) (f : SequenceKey) : List String := (s.linesOf? (f.path s.start)).getD []

end Sink

/-! ## Files that can be made -/

variable {d d' : Directory} {start : String} {f : SequenceKey} {as : List Addition}

/-- `Filled start as d d'` holds if `d'` is `d` with the files of a stream made, but empty. -/
def Filled (start : String) (as : List Addition) (d d' : Directory) : Prop :=
  as = [] ∧ d' = d ∨ ∃ k, d.walk [] (Files.namesAbove start) = .ok k ∧ d.at? k = some .directory ∧
    HoldsAll start k (keysOf as) (fun _ => "") d d'

namespace Filled

theorem canCreate_eq (h : Filled start as d d') (f : SequenceKey) :
    d'.canCreate (f.path start) = d.canCreate (f.path start) := by
  rcases h with ⟨-, rfl⟩ | ⟨k, -, -, hall⟩
  · rfl
  · exact hall.rewritten.canCreate_eq (f.filePath start)

/-- Where a file can be made the directory of the files is there. -/
theorem holdsAll (h : Filled start as d d') (hmade : d.canCreate (f.path start) = true) :
    ∃ k, d.walk [] (Files.namesAbove start) = .ok k ∧ d.at? k = some .directory ∧
      d.at? (placeOf start k f) ≠ some .directory ∧ HoldsAll start k (keysOf as) (fun _ => "") d d' := by
  obtain ⟨k, hwalk, hk, hfree⟩ := (Directory.canCreate_iff (f.filePath start)).mp hmade
  refine ⟨k, hwalk, hk, hfree, ?_⟩
  rcases h with ⟨rfl, rfl⟩ | ⟨k', hwalk', -, hall⟩
  · exact HoldsAll.nil d'
  · cases hwalk.symm.trans hwalk'
    exact hall

/-- The files that have been made could be made. -/
theorem canCreate_of_mem (h : Filled start as d d') (hf : f ∈ keysOf as) :
    d.canCreate (f.path start) = true := by
  rcases h with ⟨rfl, -⟩ | ⟨k, hwalk, hk, hall⟩
  · cases hf
  · refine (Directory.canCreate_iff (f.filePath start)).mpr ⟨k, hwalk, hk, fun hdirectory => ?_⟩
    have hdirectory' := (hall.rewritten.directories _).mpr hdirectory
    cases (hall.texts f hf).symm.trans hdirectory'

end Filled

namespace Sink

/-! ## One call -/

section

variable {m : Type → Type} [Monad m] [Storage m] [LawfulMonad m] {ρ : Type} [Hosted m ρ] {r : ρ}
  {a : Addition}

/-- A line is added if its file can be made. -/
theorem succeeds_addLine_of_canCreate (h : Filled start as d d')
    (hmade : d.canCreate (a.key.path start) = true) :
    ∃ d'', Succeeds (addLine a.key.category a.key.bucket a.key.role a.tokens : SinkWork m Unit)
        (⟨start, filesOf start as⟩, r) d' () (⟨start, filesOf start (as ++ [a])⟩, r) d'' ∧
      Filled start (as ++ [a]) d d'' := by
  obtain ⟨k, hwalk, hk, hfree, hall⟩ := h.holdsAll hmade
  obtain ⟨d'', hadd, hall'⟩ := succeeds_addLine (m := m) (r := r) hwalk hk hall hfree
  exact ⟨d'', hadd, Or.inr ⟨k, hwalk, hk, hall'⟩⟩

/-- Nothing is added if the file cannot be made. -/
theorem fails_addLine (h : Filled start as d d') (hmade : d.canCreate (a.key.path start) = false) :
    ∃ t, Fails (addLine a.key.category a.key.bucket a.key.role a.tokens : SinkWork m Unit)
      (⟨start, filesOf start as⟩, r) d' t (⟨start, filesOf start as⟩, r) d' := by
  have hnew : a.key ∉ keysOf as := fun hseen => by
    rw [h.canCreate_of_mem hseen] at hmade
    cases hmade
  have hlookup : ((filesOf start as).lookup (sequencePath start a.key.category a.key.bucket
      a.key.role.extension)).isNone = true := by
    rw [← decide_eq_true hnew]
    exact isNone_lookup_filesOf start a.key as
  obtain ⟨e, he⟩ : ∃ e, d'.create (a.key.path start) = .error e := by
    rw [← h.canCreate_eq, Directory.canCreate] at hmade
    cases hcreate : d'.create (a.key.path start) with
    | error e => exact ⟨e, rfl⟩
    | ok _ =>
      rw [hcreate] at hmade
      cases hmade
  refine ⟨.access .createFile (a.key.path start) e, Succeeds.get.bind_fails (Succeeds.get.bind_fails ?_)⟩
  dsimp only
  rw [if_pos hlookup]
  exact (Fails.change (Hosted.act_create _) he).bind

end

/-- Which sequence files can be made. -/
def makes (d : Directory) (start : String) (f : SequenceKey) : Bool := d.canCreate (f.path start)

/-- **What a call comes to**: it succeeds if both files can be made, and whatever is added is added to files
that can be made. -/
theorem exists_run_addPair (h : Filled start as d d') (c : PairCall) :
    ∃ result d'', ((ExceptT.run (addPair c.category c.bucket c.buggy c.correct :
        SinkWork (StateM Directory) Unit)).run ⟨start, filesOf start as⟩).run d' =
          ((result, ⟨start, filesOf start (as ++ c.additions (makes d start))⟩), d'') ∧
      result.isOk = (makes d start (c.key .buggy) && makes d start (c.key .correct)) ∧
      Filled start (as ++ c.additions (makes d start)) d d'' := by
  cases hbuggy : makes d start (c.key .buggy) with
  | false =>
    obtain ⟨t, hfails⟩ := fails_addLine (m := StateM Directory) (r := ())
      (a := ⟨c.key .buggy, c.buggy⟩) h hbuggy
    rw [PairCall.additions, hbuggy, if_neg Bool.false_ne_true, List.append_nil]
    exact ⟨_, d', hfails.bind.run_state, rfl, h⟩
  | true =>
    obtain ⟨d₁, hadd, h₁⟩ := succeeds_addLine_of_canCreate (m := StateM Directory) (r := ())
      (a := ⟨c.key .buggy, c.buggy⟩) h hbuggy
    cases hcorrect : makes d start (c.key .correct) with
    | false =>
      obtain ⟨t, hfails⟩ := fails_addLine (m := StateM Directory) (r := ())
        (a := ⟨c.key .correct, c.correct⟩) h₁ hcorrect
      rw [PairCall.additions, hbuggy, if_pos rfl, hcorrect, if_neg Bool.false_ne_true]
      exact ⟨_, d₁, (hadd.bind_fails hfails).run_state, rfl, h₁⟩
    | true =>
      obtain ⟨d₂, hadd₂, h₂⟩ := succeeds_addLine_of_canCreate (m := StateM Directory) (r := ())
        (a := ⟨c.key .correct, c.correct⟩) h₁ hcorrect
      rw [PairCall.additions, hbuggy, if_pos rfl, hcorrect, if_pos rfl, List.append_cons]
      exact ⟨_, d₂, (hadd.bind hadd₂).run_state, rfl, h₂⟩

/-- **What calls come to**, one after the other. -/
theorem exists_run_addPairs (h : Filled start as d d') (calls : List PairCall) :
    ∃ results d'',
      ((addPairs calls : StateT Sink (StateM Directory) _).run ⟨start, filesOf start as⟩).run d' =
        ((results, ⟨start, filesOf start (as ++ calls.flatMap (PairCall.additions (makes d start)))⟩), d'') ∧
      results.map Except.isOk =
        calls.map (fun c => makes d start (c.key .buggy) && makes d start (c.key .correct)) ∧
      Filled start (as ++ calls.flatMap (PairCall.additions (makes d start))) d d'' := by
  induction calls generalizing as d' with
  | nil =>
    rw [List.flatMap_nil, List.append_nil]
    exact ⟨[], d', rfl, rfl, h⟩
  | cons c calls ih =>
    obtain ⟨result, d₁, hcall, hok, h₁⟩ := exists_run_addPair h c
    obtain ⟨results, d₂, hrest, hoks, h₂⟩ := ih h₁
    rw [List.append_assoc] at hrest h₂
    rw [List.flatMap_cons]
    refine ⟨result :: results, d₂, ?_, ?_, h₂⟩
    · rw [addPairs, StateT.run_bind, StateT.run_bind, hcall]
      exact congrArg (fun o => ((result :: o.1.1, o.1.2), o.2)) hrest
    · rw [List.map_cons, List.map_cons, hok, hoks]

/-! ## What the files have received -/

theorem linesOf_append (f : SequenceKey) (as bs : List Addition) :
    linesOf f (as ++ bs) = linesOf f as ++ linesOf f bs := by
  rw [linesOf, List.filter_append, List.map_append]
  rfl

/-- The files of a sink have received the lines of its stream. -/
theorem received_filesOf (start : String) (as : List Addition) (f : SequenceKey) :
    (⟨start, filesOf start as⟩ : Sink).received f = linesOf f as := by
  have hlookup (fs : List SequenceKey) : ((fs.map fun g => (g.path start, (linesOf g as).reverse)).lookup
      (f.path start)) = if f ∈ fs then some (linesOf f as).reverse else none := by
    induction fs with
    | nil => rfl
    | cons g fs ih =>
      rw [List.map_cons, List.lookup_cons]
      by_cases hg : f = g
      · rw [hg, beq_self_eq_true, if_pos (.head _)]
      · have hpath : (f.path start == g.path start) = false :=
          beq_eq_false_iff_ne.mpr fun hpath => hg (SequenceKey.path_inj hpath)
        rw [hpath, ih]
        simp only [List.mem_cons, hg, false_or]
  rw [received, linesOf?, filesOf, hlookup]
  split
  next => exact List.reverse_reverse _
  next hnone => exact (not_not.mp (mt mem_keysOf_iff.mpr hnone)).symm

theorem linesOf_eq_nil (h : ∀ a ∈ as, a.key ≠ f) : linesOf f as = [] := by
  rw [linesOf, List.map_eq_nil_iff, List.filter_eq_nil_iff]
  exact fun a ha hkey => h a ha (of_decide_eq_true hkey)

variable {category : Category} {bucket : Option Nat}

/-- A call adds nothing to the files of another category or bucket. -/
theorem linesOf_additions_of_not_concerns (made : SequenceKey → Bool) {c : PairCall} (role : Role)
    (hc : c.concerns category bucket = false) :
    linesOf ⟨category, bucket, role⟩ (c.additions made) = [] := by
  have hkey (role' : Role) : c.key role' ≠ ⟨category, bucket, role⟩ := by
    intro heq
    obtain ⟨hcategory, hbucket, -⟩ := SequenceKey.mk.inj heq
    exact of_decide_eq_false hc ⟨hcategory, hbucket⟩
  refine linesOf_eq_nil fun a ha => ?_
  rcases PairCall.eq_or_eq_of_mem_additions ha with rfl | rfl
  · exact hkey .buggy
  · exact hkey .correct

/-- What the files of a category and a bucket receive of a stream of pairs, if it is known for one. -/
theorem linesOf_flatMap_additions (made : SequenceKey → Bool) (role : Role) {goes : Bool}
    {line : PairCall → String} (hline : ∀ c : PairCall, c.concerns category bucket = true →
      linesOf ⟨category, bucket, role⟩ (c.additions made) = if goes then [line c] else [])
    (calls : List PairCall) :
    linesOf ⟨category, bucket, role⟩ (calls.flatMap (PairCall.additions made)) =
      if goes then (calls.filter (PairCall.concerns category bucket)).map line else [] := by
  induction calls with
  | nil =>
    rw [List.flatMap_nil, List.filter_nil, List.map_nil, ite_self]
    rfl
  | cons c calls ih =>
    rw [List.flatMap_cons, linesOf_append, ih]
    cases hc : c.concerns category bucket with
    | false =>
      rw [linesOf_additions_of_not_concerns made role hc, List.filter_cons_of_neg (by rw [hc]; exact nofun)]
      rfl
    | true =>
      rw [hline c hc, List.filter_cons_of_pos hc, List.map_cons]
      cases goes <;> rfl

/-- The first side has the lines of all calls, or none. -/
theorem linesOf_buggy (made : SequenceKey → Bool) (calls : List PairCall) :
    linesOf ⟨category, bucket, .buggy⟩ (calls.flatMap (PairCall.additions made)) =
      if made ⟨category, bucket, .buggy⟩ then
        (calls.filter (PairCall.concerns category bucket)).map fun c => lineOf c.buggy
      else [] := by
  refine linesOf_flatMap_additions made .buggy (fun c hc => ?_) calls
  obtain ⟨rfl, rfl⟩ := of_decide_eq_true hc
  rw [PairCall.additions, PairCall.key, PairCall.key]
  cases made ⟨c.category, c.bucket, .buggy⟩ <;> cases made ⟨c.category, c.bucket, .correct⟩ <;>
    simp [linesOf]

/-- The second side has the lines of all calls if both files can be made, or none. -/
theorem linesOf_correct (made : SequenceKey → Bool) (calls : List PairCall) :
    linesOf ⟨category, bucket, .correct⟩ (calls.flatMap (PairCall.additions made)) =
      if made ⟨category, bucket, .buggy⟩ && made ⟨category, bucket, .correct⟩ then
        (calls.filter (PairCall.concerns category bucket)).map fun c => lineOf c.correct
      else [] := by
  refine linesOf_flatMap_additions made .correct (fun c hc => ?_) calls
  obtain ⟨rfl, rfl⟩ := of_decide_eq_true hc
  rw [PairCall.additions, PairCall.key, PairCall.key]
  cases made ⟨c.category, c.bucket, .buggy⟩ <;> cases made ⟨c.category, c.bucket, .correct⟩ <;>
    simp [linesOf]

/-! ## Alignment -/

/-- **Flushing brings the lines of a sink to their files**, and changes nothing else. -/
theorem exists_runs_flush (h : Filled start as d d') :
    ∃ d'', Work.Runs (flush ⟨start, filesOf start as⟩) d' () d'' ∧
      (as = [] ∧ d'' = d ∨ ∃ k, d.walk [] (Files.namesAbove start) = .ok k ∧ d.at? k = some .directory ∧
        HoldsAll start k (keysOf as) (fun f => Text.unlines (linesOf f as)) d d'') := by
  rcases h with ⟨rfl, rfl⟩ | ⟨k, hwalk, hk, hmade⟩
  · exact ⟨d', Work.Runs.pure () d', Or.inl ⟨rfl, rfl⟩⟩
  · obtain ⟨d'', hflush, hwritten⟩ := succeeds_flushFiles (m := StateM Directory) (r := ()) []
      (fun f => (linesOf f as).reverse) (hmade.walk hwalk) (hmade.directory hk) (nodup_eraseDups _)
      (HoldsAll.nil d') hmade.texts
    simp only [List.reverse_reverse, List.nil_append] at hwritten
    exact ⟨d'', hflush.runs, Or.inr ⟨k, hwalk, hk, hmade.rewritten.trans hwritten.rewritten, hwritten.texts⟩⟩

/-- After flushing, each file that has received lines without line breaks is read as these lines. -/
theorem exists_runs_flush_lines (h : Filled start as d d')
    (hplain : ∀ a ∈ as, Text.Plain (lineOf a.tokens)) :
    ∃ d'', Work.Runs (flush ⟨start, filesOf start as⟩) d' () d'' ∧
      ∀ f, linesOf f as ≠ [] →
        ∃ text, d''.read (f.path start) = .ok text ∧ Text.lines text = linesOf f as := by
  obtain ⟨d'', hflush, hwritten⟩ := exists_runs_flush h
  refine ⟨d'', hflush, fun f hf => ?_⟩
  rcases hwritten with ⟨rfl, -⟩ | ⟨k, hwalk, hk, hall⟩
  · exact absurd rfl hf
  · refine ⟨_, hall.read hwalk hk (mem_keysOf_iff.mpr hf), Text.lines_unlines_of_plain fun l hl => ?_⟩
    obtain ⟨a, ha, rfl⟩ := List.mem_map.mp hl
    exact hplain a (List.mem_filter.mp ha).1

/-- The lines of pairs without line breaks have none. -/
theorem plain_of_mem_additions {made : SequenceKey → Bool} {calls : List PairCall}
    (hplain : ∀ c ∈ calls, c.Unbroken) {a : Addition} (ha : a ∈ calls.flatMap (PairCall.additions made)) :
    Text.Plain (lineOf a.tokens) := by
  obtain ⟨c, hc, ha⟩ := List.mem_flatMap.mp ha
  have htokens : ∀ t ∈ a.tokens, t ∈ c.buggy ++ c.correct := by
    rcases PairCall.eq_or_eq_of_mem_additions ha with rfl | rfl
    · exact fun t ht => List.mem_append_left _ ht
    · exact fun t ht => List.mem_append_right _ ht
  exact Text.plain_intercalate (by decide) fun t ht => hplain c hc t (htokens t ht)

/-- What the files of a category and a bucket have received of calls, if `made` tells which files can be
made. -/
structure Shares (made : SequenceKey → Bool) (calls : List PairCall) (category : Category)
    (bucket : Option Nat) (s : Sink) : Prop where
  buggy : s.received ⟨category, bucket, .buggy⟩ =
    if made ⟨category, bucket, .buggy⟩ then
      (calls.filter (PairCall.concerns category bucket)).map fun c => lineOf c.buggy
    else []
  correct : s.received ⟨category, bucket, .correct⟩ =
    if made ⟨category, bucket, .buggy⟩ && made ⟨category, bucket, .correct⟩ then
      (calls.filter (PairCall.concerns category bucket)).map fun c => lineOf c.correct
    else []

/-- Equally many lines are lines of the same calls, and there are not equally many if the first side can be
made, the second cannot and there is something to be written. -/
theorem Shares.aligned_iff {made : SequenceKey → Bool} {calls : List PairCall} {s : Sink}
    (h : Shares made calls category bucket s) :
    (s.received ⟨category, bucket, .buggy⟩).length = (s.received ⟨category, bucket, .correct⟩).length ↔
      made ⟨category, bucket, .buggy⟩ = false ∨ made ⟨category, bucket, .correct⟩ = true ∨
        calls.filter (PairCall.concerns category bucket) = [] := by
  rw [h.buggy, h.correct]
  cases made ⟨category, bucket, .buggy⟩ with
  | false => exact iff_of_true rfl (Or.inl rfl)
  | true =>
    cases made ⟨category, bucket, .correct⟩ with
    | true =>
      refine iff_of_true ?_ (Or.inr (Or.inl rfl))
      rw [Bool.true_and, if_pos rfl, if_pos rfl, List.length_map, List.length_map]
    | false =>
      rw [Bool.true_and, if_pos rfl, if_neg Bool.false_ne_true, List.length_map, List.length_nil,
        List.length_eq_zero_iff]
      simp only [Bool.true_eq_false, Bool.false_eq_true, false_or]

/-- **Alignment of pairs.**  Whatever is in the files at first, calls that add pairs succeed if and only if
both files can be made then, and the files of each category and bucket have the lines of the same calls,
unless the first can be made, the second cannot, and there is something to be written: then the first has
a line of every call and the second has none. -/
theorem pairs_aligned_iff (d : Directory) (start : String) {calls : List PairCall}
    (hplain : ∀ c ∈ calls, c.Unbroken) :
    ∃ results s d' d'',
      ((addPairs calls : StateT Sink (StateM Directory) _).run ⟨start, []⟩).run d = ((results, s), d') ∧
      results.map Except.isOk =
        calls.map (fun c => makes d start (c.key .buggy) && makes d start (c.key .correct)) ∧
      (∀ category bucket, Shares (makes d start) calls category bucket s ∧
        ((s.received ⟨category, bucket, .buggy⟩).length = (s.received ⟨category, bucket, .correct⟩).length ↔
          makes d start ⟨category, bucket, .buggy⟩ = false ∨
            makes d start ⟨category, bucket, .correct⟩ = true ∨
              calls.filter (PairCall.concerns category bucket) = [])) ∧
      Work.Runs (flush s) d' () d'' ∧
      ∀ f, s.received f ≠ [] →
        ∃ text, d''.read (f.path start) = .ok text ∧ Text.lines text = s.received f := by
  have hstart : Filled start [] d d := Or.inl ⟨rfl, rfl⟩
  obtain ⟨results, d', hrun, hok, hfilled⟩ := exists_run_addPairs hstart calls
  rw [List.nil_append] at hrun hfilled
  obtain ⟨d'', hflush, hread⟩ := exists_runs_flush_lines hfilled fun a ha => plain_of_mem_additions hplain ha
  have hshares (category : Category) (bucket : Option Nat) :
      Shares (makes d start) calls category bucket
        ⟨start, filesOf start (calls.flatMap (PairCall.additions (makes d start)))⟩ := by
    constructor
    · rw [received_filesOf]
      exact linesOf_buggy _ calls
    · rw [received_filesOf]
      exact linesOf_correct _ calls
  refine ⟨results, _, d', d'', hrun, hok, fun category bucket => ?_, hflush, fun f hf => ?_⟩
  · exact ⟨hshares category bucket, (hshares category bucket).aligned_iff⟩
  · rw [received_filesOf] at hf ⊢
    exact hread f hf

/-- A directory in the place of the second side of repairs. -/
def blockedRepairs : Directory := ⟨[(["seq-repair.correct"], .directory)]⟩

/-- One repair. -/
def oneRepair : PairCall := ⟨.repair, none, ["a"], ["b"]⟩

theorem unbroken_oneRepair : ∀ c ∈ [oneRepair], c.Unbroken := by
  decide

theorem pairs_aligned_iff_blockedRepairs : ∃ results s d' d'',
    ((addPairs [oneRepair] : StateT Sink (StateM Directory) _).run ⟨"seq", []⟩).run blockedRepairs =
      ((results, s), d') ∧
    results.map Except.isOk = [oneRepair].map (fun c =>
      makes blockedRepairs "seq" (c.key .buggy) && makes blockedRepairs "seq" (c.key .correct)) ∧
    (∀ category bucket, Shares (makes blockedRepairs "seq") [oneRepair] category bucket s ∧
      ((s.received ⟨category, bucket, .buggy⟩).length = (s.received ⟨category, bucket, .correct⟩).length ↔
        makes blockedRepairs "seq" ⟨category, bucket, .buggy⟩ = false ∨
          makes blockedRepairs "seq" ⟨category, bucket, .correct⟩ = true ∨
            [oneRepair].filter (PairCall.concerns category bucket) = [])) ∧
    Work.Runs (flush s) d' () d'' ∧
    ∀ f, s.received f ≠ [] →
      ∃ text, d''.read (f.path "seq") = .ok text ∧ Text.lines text = s.received f :=
  pairs_aligned_iff blockedRepairs "seq" unbroken_oneRepair

/-- **A call that fails has added a line to the first side.** -/
theorem failed_pair_leaves_line : ∃ t s d',
    ((addPairs [oneRepair] : StateT Sink (StateM Directory) _).run ⟨"seq", []⟩).run blockedRepairs =
      (([.error t], s), d') ∧
    s.received ⟨.repair, none, .buggy⟩ = ["a"] ∧ s.received ⟨.repair, none, .correct⟩ = [] :=
  ⟨_, _, _, rfl, rfl, rfl⟩

end Sink

end RepairCorpus
