import RepairCorpus.Proofs.Corpus.PairAlignment

/-!
# Sessions with a sink

Pairs and single sequences come to a sink in any order, for any category and bucket.  If all calls succeed,
the sink has seen the stream of all that they add, whatever was in the files before: a call can only have
succeeded if its files could be made, so nothing is assumed about them.  Flushing then comes to the files
of that stream, and the sink knows how long each has become.

* `SinkCall`: a call, and what it adds.
* `Sink.filled_of_run_addAll`: a stream that has been added without a failure has been added to its files.
* `Delivered`: what is in the files when a stream has been flushed.
* `Reported`: what a sink tells about them.
* `Sink.session_delivers`: **a session delivers and reports the lines of its calls**, each file those that
  belong to it.
-/

namespace RepairCorpus

open Files (Directory Location)
open Files.Directory (Rewritten)
open Work (Succeeds Runs)

/-! ## Calls -/

/-- A call of a sink. -/
inductive SinkCall where
  | pair (category : Category) (bucket : Option Nat) (buggy correct : List Token)
  | single (category : Category) (bucket : Option Nat) (tokens : List Token)
  deriving DecidableEq

namespace SinkCall

variable {m : Type → Type} [Monad m] [Storage m]

/-- What a call adds, in order. -/
def additions : SinkCall → List Addition
  | .pair category bucket buggy correct =>
    [⟨⟨category, bucket, .buggy⟩, buggy⟩, ⟨⟨category, bucket, .correct⟩, correct⟩]
  | .single category bucket tokens => [⟨⟨category, bucket, .single⟩, tokens⟩]

/-- Makes a call. -/
def perform : SinkCall → SinkWork m Unit
  | .pair category bucket buggy correct => Sink.addPair category bucket buggy correct
  | .single category bucket tokens => Sink.addSequence category bucket tokens

/-- The tokens of a call have no line feeds. -/
def NoFeed (c : SinkCall) : Prop := ∀ a ∈ c.additions, ∀ t ∈ a.tokens, '\n' ∉ t.toList

instance (c : SinkCall) : Decidable c.NoFeed :=
  inferInstanceAs (Decidable (∀ a ∈ c.additions, ∀ t ∈ a.tokens, '\n' ∉ t.toList))

end SinkCall

namespace Sink

section

variable {m : Type → Type} [Monad m] [Storage m]

/-- Makes calls one after the other, until one fails. -/
def performAll : List SinkCall → SinkWork m Unit
  | [] => return
  | c :: cs => do
    c.perform
    performAll cs

variable [LawfulMonad m]

theorem perform_eq (c : SinkCall) : (c.perform : SinkWork m Unit) = addAll c.additions := by
  cases c with
  | pair category bucket buggy correct =>
    show _ = (addLine category bucket .buggy buggy >>= fun _ =>
      addLine category bucket .correct correct >>= fun _ => pure ())
    rw [bind_pure_unit]
    rfl
  | single category bucket tokens =>
    exact bind_pure_unit.symm

/-- **Calls add one stream**, whatever kinds of calls they are. -/
theorem performAll_eq (calls : List SinkCall) :
    (performAll calls : SinkWork m Unit) = addAll (calls.flatMap SinkCall.additions) := by
  induction calls with
  | nil => rfl
  | cons c calls ih => rw [performAll, perform_eq, ih, List.flatMap_cons, addAll_append]

end

variable {d d' d'' : Directory} {start : String} {f : SequenceKey} {as earlier : List Addition} {s : Sink}

/-! ## Streams that have been added -/

/-- **A stream that has been added without a failure** has been added to its files. -/
theorem filled_of_run_addAll (h : Filled start earlier d d')
    (hrun : ((ExceptT.run (addAll as : SinkWork (StateM Directory) Unit)).run
      ⟨start, filesOf start earlier⟩).run d' = ((.ok (), s), d'')) :
    s = ⟨start, filesOf start (earlier ++ as)⟩ ∧ Filled start (earlier ++ as) d d'' := by
  induction as generalizing earlier d' with
  | nil =>
    cases hrun
    rw [List.append_nil]
    exact ⟨rfl, h⟩
  | cons a as ih =>
    cases hmade : d.canCreate (a.key.path start) with
    | false =>
      obtain ⟨t, hfails⟩ := fails_addLine (m := StateM Directory) (r := ()) h hmade
      have hfailed := (hfails.bind (f := fun _ => addAll as)).run_state
      cases hfailed.symm.trans hrun
    | true =>
      obtain ⟨d₁, hadd, h₁⟩ := succeeds_addLine_of_canCreate (m := StateM Directory) (r := ()) h hmade
      rw [addAll, ExceptT.run_bind, StateT.run_bind, StateT.run_bind, hadd.run_state] at hrun
      rw [List.append_cons]
      exact ih h₁ hrun

end Sink

/-! ## What is in the files -/

/-- `Delivered start as d d'` holds if `d'` is what a stream makes of `d` when its lines have reached their
files. -/
structure Delivered (start : String) (as : List Addition) (d d' : Directory) : Prop where
  /-- A file that has lines holds them and nothing else. -/
  texts : ∀ f, linesOf f as ≠ [] → d'.read (f.path start) = .ok (Text.unlines (linesOf f as))
  /-- A file that has no lines is as it was, or it is still not there. -/
  untouched : ∀ f, linesOf f as = [] →
    ∀ e, d'.status (f.path start) = .ok e ↔ d.status (f.path start) = .ok e

/-- `Reported start as report` holds if a report gives the lengths of the files of a stream. -/
structure Reported (start : String) (as : List Addition) (report : List (String × Nat)) : Prop where
  once : (report.map Prod.fst).Nodup
  mem_iff : ∀ path n, (path, n) ∈ report ↔
    ∃ f, linesOf f as ≠ [] ∧ f.path start = path ∧ (linesOf f as).length = n

variable {d d' : Directory} {start : String} {as : List Addition}

/-- Files that hold the lines of a stream, and nothing else has changed. -/
theorem HoldsAll.delivered {k : Location}
    (h : HoldsAll start k (keysOf as) (fun f => Text.unlines (linesOf f as)) d d')
    (hwalk : d.walk [] (Files.namesAbove start) = .ok k) (hk : d.at? k = some .directory) :
    Delivered start as d d' where
  texts f hf := h.read hwalk hk (mem_keysOf_iff.mpr hf)
  untouched f hf e := by
    refine h.rewritten.status_iff (f.filePath start) fun l hplace => ?_
    obtain ⟨g, hg, heq⟩ := hplace
    have hfg : f = g := placeOf_inj (k := l) heq
    exact mem_keysOf_iff.mp hg (hfg ▸ hf)

theorem delivered_nil (start : String) (d : Directory) : Delivered start [] d d where
  texts _ h := absurd rfl h
  untouched _ _ _ := Iff.rfl

namespace Sink

/-- Flushing delivers the lines of a stream. -/
theorem exists_runs_flush_delivered (h : Filled start as d d') :
    ∃ d'', Runs (flush ⟨start, filesOf start as⟩) d' () d'' ∧ Delivered start as d d'' := by
  obtain ⟨d'', hflush, hwritten⟩ := exists_runs_flush h
  refine ⟨d'', hflush, ?_⟩
  rcases hwritten with ⟨rfl, rfl⟩ | ⟨k, hwalk, hk, hall⟩
  · exact delivered_nil start d''
  · exact hall.delivered hwalk hk

/-- **A sink reports the files of its stream.** -/
theorem reported_written (start : String) (as : List Addition) :
    Reported start as (written ⟨start, filesOf start as⟩) := by
  have hfiles : (filesOf start as).map (fun file => (file.1, file.2.length)) =
      (keysOf as).map fun f => (f.path start, (linesOf f as).length) := by
    rw [filesOf, List.map_map]
    refine List.map_congr_left fun f _ => ?_
    rw [Function.comp_apply, List.length_reverse]
  rw [written, hfiles]
  constructor
  · have hpaths : ((keysOf as).map (SequenceKey.path start)).Nodup :=
      (nodup_eraseDups _).map fun _ _ hpath => SequenceKey.path_inj hpath
    have hperm := (List.mergeSort_perm ((keysOf as).map fun f => (f.path start, (linesOf f as).length))
      fun a b => decide (a.1 ≤ b.1)).map Prod.fst
    rw [List.map_map] at hperm
    exact hperm.nodup_iff.mpr hpaths
  · intro path n
    rw [List.mem_mergeSort, List.mem_map]
    refine exists_congr fun f => ?_
    rw [mem_keysOf_iff, Prod.mk.injEq]

/-! ## Sessions -/

/-- No line of calls without line feeds has a line feed. -/
theorem noFeed_of_mem_linesOf {calls : List SinkCall} (hfeed : ∀ c ∈ calls, c.NoFeed) {f : SequenceKey}
    {l : String} (hl : l ∈ linesOf f (calls.flatMap SinkCall.additions)) : '\n' ∉ l.toList := by
  obtain ⟨a, ha, rfl⟩ := List.mem_map.mp hl
  obtain ⟨c, hc, hadd⟩ := List.mem_flatMap.mp (List.mem_filter.mp ha).1
  intro hmem
  rcases Text.mem_of_mem_intercalate hmem with hmem | ⟨t, ht, hmem⟩
  · exact absurd hmem (by decide)
  · exact hfeed c hc a hadd t ht hmem

/-- **A session delivers and reports the lines of its calls.**  Calls of any kind, for any categories and
buckets and in any order, that have all succeeded are followed by a flush that succeeds as well.  Different
categories, buckets and roles have different paths; each file that a call has written to then holds the
lines written to it, in the order of the calls and nothing else, each read back as it was but for a carriage
return at its end; the other files are as they were; and the sink reports the paths of the written files
with the numbers of their lines. -/
theorem session_delivers {d₁ : Directory} {s : Sink} {calls : List SinkCall}
    (hfeed : ∀ c ∈ calls, c.NoFeed)
    (hrun : ((ExceptT.run (performAll calls : SinkWork (StateM Directory) Unit)).run ⟨start, []⟩).run d =
      ((.ok (), s), d₁)) :
    (∀ f g : SequenceKey, f.path start = g.path start → f = g) ∧
      ∃ d₂, Runs s.flush d₁ () d₂ ∧ Delivered start (calls.flatMap SinkCall.additions) d d₂ ∧
        (∀ f, Text.lines (Text.unlines (linesOf f (calls.flatMap SinkCall.additions))) =
          (linesOf f (calls.flatMap SinkCall.additions)).map Text.withoutReturn) ∧
        Reported start (calls.flatMap SinkCall.additions) s.written := by
  have hstart : Filled start [] d d := Or.inl ⟨rfl, rfl⟩
  rw [performAll_eq] at hrun
  obtain ⟨rfl, hfilled⟩ := filled_of_run_addAll hstart hrun
  rw [List.nil_append] at hfilled ⊢
  obtain ⟨d₂, hflush, hdelivered⟩ := exists_runs_flush_delivered hfilled
  refine ⟨fun _ _ => SequenceKey.path_inj, d₂, hflush, hdelivered, fun f => ?_, reported_written _ _⟩
  exact Text.lines_unlines_of_noFeed fun l hl => noFeed_of_mem_linesOf hfeed hl

/-- Repairs of an earlier run, and notes. -/
def earlierRepairs : Directory :=
  ⟨[(["seq-repair.buggy"], .file (.text "old\nolder\n")), (["seq-mutant2.seq"], .file (.text "kept\n"))]⟩

/-- Two repairs with a mutant between them. -/
def mutantBetweenRepairs : List SinkCall :=
  [.pair .repair none ["a", ";"] ["b"], .single .mutant (some 1) ["x"], .pair .repair none ["c"] ["d"]]

theorem session_delivers_mutantBetweenRepairs : ∃ s d₁,
    (∀ c ∈ mutantBetweenRepairs, c.NoFeed) ∧
    ((ExceptT.run (performAll mutantBetweenRepairs : SinkWork (StateM Directory) Unit)).run
      ⟨"seq", []⟩).run earlierRepairs = ((.ok (), s), d₁) ∧
    (∀ f g : SequenceKey, f.path "seq" = g.path "seq" → f = g) ∧
      ∃ d₂, Runs s.flush d₁ () d₂ ∧
        Delivered "seq" (mutantBetweenRepairs.flatMap SinkCall.additions) earlierRepairs d₂ ∧
        (∀ f, Text.lines (Text.unlines (linesOf f (mutantBetweenRepairs.flatMap SinkCall.additions))) =
          (linesOf f (mutantBetweenRepairs.flatMap SinkCall.additions)).map Text.withoutReturn) ∧
        Reported "seq" (mutantBetweenRepairs.flatMap SinkCall.additions) s.written :=
  ⟨_, _, by decide, rfl, session_delivers (by decide) rfl⟩

end Sink

end RepairCorpus
