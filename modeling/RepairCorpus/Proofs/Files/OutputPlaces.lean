import RepairCorpus.Proofs.Files.Worlds

/-!
# Places for output

The paths of all output files of a run have a beginning in common, and the run makes the directory above
that beginning before anything else.  This is not always the directory the files are in: behind a
beginning with a slash at its end they are one level further down.  So the directory of the files is
described by the paths of the files, and of the first step of a run it is said that it does nothing to a
directory that is there.

* `names_unpieces`: the names along a path that has been put together from pieces.
* `names_parent`: the directory that is made lies on the way to that of the files.
* `Directory.makeParent_of_walk`: **nothing is made if the directory of the files is there**.
* `OutputAt`, `EmptyAt`: the files with that directory made, and its location.
* `Succeeds.makeParent`, `Succeeds.create`, `Succeeds.overwrite`: making it, and making and writing a
  file.
-/

namespace RepairCorpus

namespace Files

/-! ## Parents -/

/-- Pieces with slashes between them come apart again. -/
theorem pieces_unpieces {ps : List (List Char)} (hne : ps ≠ []) (h : ∀ p ∈ ps, '/' ∉ p) :
    pieces (unpieces ps) = ps := by
  induction ps with
  | nil => exact absurd rfl hne
  | cons p ps ih =>
    have hp : pieces p = [p] := pieces_of_notMem (h p (.head _))
    cases ps with
    | nil =>
      rw [unpieces, List.intercalate_singleton, hp]
    | cons q ps =>
      have hrest := ih (List.cons_ne_nil q ps) fun r hr => h r (.tail _ hr)
      have hjoin : unpieces (p :: q :: ps) = p ++ '/' :: unpieces (q :: ps) := by
        rw [unpieces, List.intercalate_cons_cons, List.append_assoc]
        rfl
      rw [hjoin, pieces_append_slash, hp, hrest]
      rfl

theorem names_unpieces {ps : List (List Char)} (h : ∀ p ∈ ps, '/' ∉ p) :
    names (String.ofList (unpieces ps)) = (ps.filter fun p => !isIdle p).map String.ofList := by
  rw [names, String.toList_ofList]
  by_cases hne : ps = []
  · rw [hne]
    rfl
  · rw [pieces_unpieces hne h]

theorem isPrefix_trimmed (ps : List (List Char)) : trimmed ps <+: ps := by
  cases ps with
  | nil => exact List.prefix_refl []
  | cons p ps =>
    refine List.prefix_cons_inj p |>.mpr ?_
    have hsuffix := List.dropWhile_suffix isIdle (l := ps.reverse)
    have hfront := List.reverse_prefix.mpr hsuffix
    rwa [List.reverse_reverse] at hfront

theorem isPrefix_dropLast {α : Type} {xs ys : List α} (h : xs <+: ys) :
    xs.dropLast <+: ys.dropLast := by
  obtain ⟨zs, rfl⟩ := h
  cases zs with
  | nil => simp
  | cons z zs =>
    rw [List.dropLast_append_of_ne_nil (List.cons_ne_nil z zs)]
    exact (List.dropLast_prefix xs).trans (List.prefix_append xs _)

/-- **The parent of a beginning** lies on the way to the files with that beginning. -/
theorem names_parent {start parent : String} (h : parent? start = some parent) :
    names parent <+: namesAbove start := by
  have hfront : trimmed (trimmed (pieces start.toList)).dropLast <+: (pieces start.toList).dropLast :=
    (isPrefix_trimmed _).trans (isPrefix_dropLast (isPrefix_trimmed _))
  unfold parent? at h
  split at h
  next => cases h
  next =>
    split at h
    next =>
      cases h
      exact List.nil_prefix
    next =>
      cases h
      rw [names_unpieces]
      · exact (hfront.filter _).map _
      · intro p hp
        exact slash_notMem_of_mem_pieces (List.dropLast_subset _ (hfront.subset hp))

namespace Directory

variable {d d' : Directory} {l k : Location} {start : String}

/-! ## Making the parent -/

/-- Makes the directory that a path leads into, if the path names one. -/
def makeParent (d : Directory) (path : String) : Except Failure Directory :=
  match parent? path with
  | none => .ok d
  | some parent => if parent.isEmpty then .ok d else d.makeDirectories parent

theorem at?_of_walk {ns : List String} (h : d.walk l ns = .ok k) (hk : d.at? k = some .directory) :
    d.at? l = some .directory := by
  cases ns with
  | nil =>
    cases h
    exact hk
  | cons n ns => exact (walk_cons_eq_ok_iff.mp h).1

/-- Nothing is made along a way that is there. -/
theorem makeAlong_of_walk {ns ms : List String} (h : d.walk l ns = .ok k)
    (hk : d.at? k = some .directory) (hfront : ms <+: ns) : d.makeAlong l ms = .ok d := by
  induction ms generalizing l ns with
  | nil => rfl
  | cons m ms ih =>
    obtain ⟨rest, rfl⟩ := hfront
    rw [List.cons_append] at h
    obtain ⟨-, hnext⟩ := walk_cons_eq_ok_iff.mp h
    rw [makeAlong_cons_of_directory (at?_of_walk hnext hk)]
    exact ih hnext (List.prefix_append ms rest)

/-- **Nothing is made if the directory of the files is there.** -/
theorem makeParent_of_walk (h : d.walk [] (namesAbove start) = .ok k)
    (hk : d.at? k = some .directory) : d.makeParent start = .ok d := by
  unfold makeParent
  split
  next => rfl
  next parent hparent =>
    split
    next => rfl
    next => exact makeAlong_of_walk h hk (names_parent hparent)

end Directory

/-- `OutputAt d start d' k` holds if making the parent of a beginning turns `d` into `d'`, and the files
with that beginning then belong to the directory at `k`. -/
structure OutputAt (d : Directory) (start : String) (d' : Directory) (k : Location) : Prop where
  made : d.makeParent start = .ok d'
  walk : d'.walk [] (namesAbove start) = .ok k
  directory : d'.at? k = some .directory

/-- `EmptyAt d start d' k` holds if moreover nothing is in that directory. -/
structure EmptyAt (d : Directory) (start : String) (d' : Directory) (k : Location) : Prop
    extends OutputAt d start d' k where
  empty : ∀ name, d'.at? (k ++ [name]) = none

/-- A directory that is there can be used. -/
theorem OutputAt.of_walk {d : Directory} {start : String} {k : Location}
    (h : d.walk [] (namesAbove start) = .ok k) (hk : d.at? k = some .directory) :
    OutputAt d start d k :=
  ⟨Directory.makeParent_of_walk h hk, h, hk⟩

end Files

namespace Work.Succeeds

open Files (Directory Location FilePath)

variable {m : Type → Type} [Monad m] [Storage m] {ρ : Type} [Hosted m ρ] {r : ρ} {d d' : Directory}
  {k : Location} {path name start : String} {above : List String} {a : Attempt}

/-! ## Work on output -/

theorem makeParent (h : d.makeParent start = .ok d') :
    Succeeds (Work.makeParent start : Work m Unit) r d () r d' := by
  unfold Directory.makeParent at h
  unfold Work.makeParent
  split
  next hnone =>
    rw [hnone] at h
    cases h
    exact Succeeds.pure () r d
  next parent hparent =>
    rw [hparent] at h
    dsimp only at h
    split
    next hempty =>
      rw [if_pos hempty] at h
      cases h
      exact Succeeds.pure () r d
    next hempty =>
      rw [if_neg hempty] at h
      exact change (Hosted.act_makeDirectories parent) h

/-- Making a file in a directory. -/
theorem create (hpath : FilePath path above name) (hwalk : d.walk [] above = .ok k)
    (hk : d.at? k = some .directory) (hfree : d.at? (k ++ [name]) ≠ some .directory) :
    Succeeds (Work.attempt a path (Storage.create path) : Work m Unit) r d () r
      (d.put (k ++ [name]) (.file .empty)) := by
  have hlocate := (Directory.locate_eq_ok_iff hpath).mpr ⟨k, hwalk, hk, rfl⟩
  exact change (Hosted.act_create path) (Directory.create_eq hpath hlocate hfree)

/-- Writing to a file in a directory that has just been made. -/
theorem overwrite (text : String) (hpath : FilePath path above name) (hwalk : d.walk [] above = .ok k)
    (hk : d.at? k = some .directory) (hempty : d.at? (k ++ [name]) = some (.file .empty)) :
    Succeeds (Work.attempt a path (Storage.overwrite path text) : Work m Unit) r d () r
      (d.put (k ++ [name]) (.file (.text text))) := by
  have hlocate := (Directory.locate_eq_ok_iff hpath).mpr ⟨k, hwalk, hk, rfl⟩
  exact change (Hosted.act_overwrite path text) (Directory.overwrite_eq hlocate hempty)

end Work.Succeeds

end RepairCorpus
