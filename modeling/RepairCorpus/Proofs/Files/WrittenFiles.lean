import RepairCorpus.Proofs.Files.OutputPlaces

/-!
# Files that are written and read back

A file can be made at a path if the path leads somewhere, no directory is there and the path does not end
like that of a directory.  This does not depend on what is in the files, so whatever is written to a file
that could be made is read back from it by the same path.  Nothing is asked of the path: it may go up and
down and through idle pieces.

* `Directory.create_eq_ok_iff`: when a file can be made, and what comes of it.
* `Directory.canCreate_iff`, `Rewritten.canCreate_eq`: the same for the path of a file, and that it does not
  change.
* `Work.Runs.exists_writeFile`: **a file that can be made can be written, and is read back**.
-/

namespace RepairCorpus

open Files (Content Directory FilePath Location)
open Files.Directory (Rewritten)

namespace Files.Directory

variable {d d' : Directory} {path : String} {l : Location}

/-- Where a path leads that does not end like that of a directory. -/
theorem locate_eq_ok_iff_walk (hidle : endsIdle path = false) :
    d.locate path = .ok l ↔ path.isEmpty = false ∧ d.walk [] (names path) = .ok l := by
  rw [locate, hidle]
  cases path.isEmpty with
  | true =>
    refine iff_of_false (fun hl => ?_) fun h => absurd h.1 (by decide)
    cases hl
  | false =>
    refine Except.bind_eq_ok_iff.trans
      (Iff.trans ⟨?_, fun hwalk => ⟨l, hwalk, ?_⟩⟩ (and_iff_right rfl).symm)
    · rintro ⟨k, hk, hl⟩
      split at hl
      next =>
        cases hl
        exact hk
      next =>
        cases hl
        exact hk
    · split <;> rfl

/-- A path that ends like that of a directory does not lead to a file. -/
theorem not_file_of_locate (hl : d.locate path = .ok l) (hidle : endsIdle path = true) {content : Content} :
    d.at? l ≠ some (.file content) := by
  intro hfile
  rw [locate] at hl
  cases hempty : path.isEmpty with
  | true =>
    rw [hempty] at hl
    cases hl
  | false =>
    rw [hempty] at hl
    obtain ⟨k, -, hk⟩ := Except.bind_eq_ok_iff.mp hl
    split at hk
    next hat =>
      rw [if_pos hidle] at hk
      cases hk
    next hat =>
      cases hk
      exact hat content hfile

/-- **When a file can be made.** -/
theorem create_eq_ok_iff : d.create path = .ok d' ↔
    ∃ l, d.locate path = .ok l ∧ d.at? l ≠ some .directory ∧ endsIdle path = false ∧
      d.put l (.file .empty) = d' := by
  rw [create]
  refine Except.bind_eq_ok_iff.trans (exists_congr fun l => and_congr_right fun hl => ?_)
  cases hidle : endsIdle path with
  | true =>
    refine iff_of_false (fun hmade => ?_) fun h => absurd h.2.1 (by decide)
    split at hmade
    next => cases hmade
    next hfile => exact not_file_of_locate hl hidle hfile
    next => cases hmade
  | false =>
    split
    next hdirectory =>
      refine iff_of_false (fun hmade => ?_) fun h => h.1 hdirectory
      cases hmade
    next hfile =>
      have hfree : d.at? l ≠ some .directory := fun hdirectory => by
        cases hfile.symm.trans hdirectory
      rw [and_iff_right hfree, and_iff_right rfl]
      exact Except.ok.injEq _ d' ▸ Iff.rfl
    next hnone =>
      have hfree : d.at? l ≠ some .directory := fun hdirectory => by
        cases hnone.symm.trans hdirectory
      rw [and_iff_right hfree, and_iff_right rfl, if_neg Bool.false_ne_true]
      exact Except.ok.injEq _ d' ▸ Iff.rfl

/-- Whether a file can be made at a path. -/
def canCreate (d : Directory) (path : String) : Bool := (d.create path).isOk

theorem canCreate_iff_exists : d.canCreate path = true ↔ ∃ d', d.create path = .ok d' := by
  rw [canCreate]
  cases d.create path with
  | error e => exact iff_of_false nofun nofun
  | ok d' => exact iff_of_true rfl ⟨d', rfl⟩

/-- **A file can be made** if its directory is there and no other directory is in its place. -/
theorem canCreate_iff {above : List String} {name : String} (h : FilePath path above name) :
    d.canCreate path = true ↔
      ∃ k, d.walk [] above = .ok k ∧ d.at? k = some .directory ∧ d.at? (k ++ [name]) ≠ some .directory := by
  rw [canCreate_iff_exists]
  constructor
  · rintro ⟨d', hmade⟩
    obtain ⟨l, hl, hfree, -, -⟩ := create_eq_ok_iff.mp hmade
    obtain ⟨k, hwalk, hk, rfl⟩ := (locate_eq_ok_iff h).mp hl
    exact ⟨k, hwalk, hk, hfree⟩
  · rintro ⟨k, hwalk, hk, hfree⟩
    exact ⟨_, create_eq h ((locate_eq_ok_iff h).mpr ⟨k, hwalk, hk, rfl⟩) hfree⟩

/-- **Making files does not change which files can be made.** -/
theorem Rewritten.canCreate_eq {P : Location → Prop} {above : List String} {name : String}
    (h : FilePath path above name) (hd : Rewritten P d d') : d'.canCreate path = d.canCreate path := by
  rw [Bool.eq_iff_iff, canCreate_iff h, canCreate_iff h]
  refine exists_congr fun k => ?_
  rw [hd.walk_iff, hd.directories, Ne, hd.directories]

end Files.Directory

namespace Work.Runs

variable {d d₁ : Directory} {path : String}

theorem makeParent (h : d.makeParent path = .ok d₁) :
    Runs (Work.makeParent path : Work (StateM Directory) Unit) d () d₁ :=
  (Succeeds.makeParent h).runs

/-- Reading a file. -/
theorem attempt_read {a : Attempt} {text : String} (h : d.read path = .ok text) :
    Runs (Work.attempt a path (Storage.read path)) d text d :=
  (Succeeds.read h).runs

/-- **A file that can be made can be written, and what was written is read back**; nothing else changes. -/
theorem exists_writeFile (a : Attempt) (text : String) (h : d.create path = .ok d₁) :
    ∃ l d', d.locate path = .ok l ∧ Runs (Work.writeFile a path text) d () d' ∧
      Rewritten (fun k => k = l) d d' ∧ d'.read path = .ok text := by
  obtain ⟨l, hl, hfree, hidle, rfl⟩ := Directory.create_eq_ok_iff.mp h
  have hroot : l ≠ [] := fun hroot => hfree (hroot ▸ Directory.at?_root d)
  have hlocate {d' : Directory} (hd : Rewritten (fun k => k = l) d d') : d'.locate path = .ok l := by
    obtain ⟨hempty, hwalk⟩ := (Directory.locate_eq_ok_iff_walk hidle).mp hl
    exact (Directory.locate_eq_ok_iff_walk hidle).mpr ⟨hempty, hd.walk_iff.mpr hwalk⟩
  have hmade : Rewritten (fun k => k = l) d (d.put l (.file .empty)) :=
    Directory.rewritten_put hroot hfree
  have hat (d' : Directory) (content : Content) :
      (d'.put l (.file content)).at? l = some (.file content) := by
    rw [Directory.at?_put d' l l _ hroot, if_pos rfl]
  have hfree' : (d.put l (.file .empty)).at? l ≠ some .directory := fun hdirectory => by
    cases (hat d .empty).symm.trans hdirectory
  have hwritten : Rewritten (fun k => k = l) d ((d.put l (.file .empty)).put l (.file (.text text))) :=
    hmade.trans (Directory.rewritten_put hroot hfree')
  have hover := Directory.overwrite_eq (s := text) (hlocate hmade) (hat d .empty)
  have hstatus := Directory.status_eq_ok_iff.mpr ⟨l, hlocate hwritten, hat _ (.text text)⟩
  refine ⟨l, _, hl, (attempt_change h).bind (attempt_change hover), hwritten, ?_⟩
  exact Directory.read_eq_ok_iff.mpr ⟨.text text, hstatus, rfl⟩

end Work.Runs

end RepairCorpus
