import RepairCorpus.Files.Storage
import RepairCorpus.Proofs.Files.Rewriting

/-!
# Runs of work on a directory

Work on files is a function from the files before to the outcome and the files after.  What is proved
about it is mostly that it succeeds, so success is a relation of its own, and it is put together from
the successes of the parts.

* `Work.Runs`: work succeeds, with an outcome and a directory that it leaves.
* `Work.Runs.bind`, `Work.Runs.attempt_change`, `Work.Runs.query`: how runs are put together.
* `Work.PlaceAt`: a directory that a path leads to.
* `PlaceAt.exists_runs_create`, `PlaceAt.exists_runs_overwrite`: making and writing a file in it succeeds
  and changes nothing else.
-/

namespace RepairCorpus.Work

open Files (Directory Location FilePath Content)
open Files.Directory (Rewritten)

variable {α β : Type} {d d' d'' : Directory}

/-- `Runs w d x d'` holds if work on a directory `d` succeeds with `x` and leaves `d'`. -/
def Runs (w : Work (StateM Directory) α) (d : Directory) (x : α) (d' : Directory) : Prop :=
  (ExceptT.run w).run d = (.ok x, d')

namespace Runs

variable {w : Work (StateM Directory) α} {f : α → Work (StateM Directory) β} {x : α} {y : β}

theorem pure (x : α) (d : Directory) : Runs (Pure.pure x) d x d := rfl

/-- What comes after work that has succeeded starts where it has left the directory. -/
theorem run_bind (hw : Runs w d x d') :
    (ExceptT.run (w >>= f)).run d = (ExceptT.run (f x)).run d' := by
  rw [Runs] at hw
  rw [ExceptT.run_bind, StateT.run_bind, hw]
  rfl

theorem bind (hw : Runs w d x d') (hf : Runs (f x) d' y d'') : Runs (w >>= f) d y d'' :=
  hw.run_bind.trans hf

/-- A change of the directory. -/
theorem attempt_change {a : Attempt} {path : String}
    {change : Directory → Except Files.Failure Directory} (h : change d = .ok d') :
    Runs (attempt a path (Storage.change change)) d () d' := by
  have haccess : (Storage.change change).run d = (.ok (), d') := by
    show Storage.change change d = _
    rw [Storage.change, h]
  rw [Runs, attempt, ExceptT.run_mk, StateT.run_bind, haccess]
  rfl

theorem query {access : StateM Directory α} (h : access.run d = (x, d')) :
    Runs (Work.query access) d x d' := by
  rw [Runs, Work.query, ExceptT.run_lift, StateT.run_map, h]
  rfl

end Runs

/-! ## Files in a directory -/

/-- `PlaceAt d path k` holds if a path leads to a directory, whose location is `k`. -/
structure PlaceAt (d : Directory) (path : String) (k : Location) : Prop where
  walk : d.walk [] (Files.names path) = .ok k
  directory : d.at? k = some .directory

namespace PlaceAt

variable {out name text : String} {k : Location} {P : Location → Prop} {a : Attempt}

theorem rewritten (h : PlaceAt d out k) (hd : Rewritten P d d') : PlaceAt d' out k where
  walk := hd.walk_iff.mpr h.walk
  directory := (hd.directories k).mpr h.directory

theorem locate_join (h : PlaceAt d out k) (hname : FilePath (Files.join out name) (Files.names out) name) :
    d.locate (Files.join out name) = .ok (k ++ [name]) :=
  (Directory.locate_eq_ok_iff hname).mpr ⟨k, h.walk, h.directory, rfl⟩

theorem read_join (h : PlaceAt d out k) (hname : FilePath (Files.join out name) (Files.names out) name)
    (hfile : d.at? (k ++ [name]) = some (.file (.text text))) :
    d.read (Files.join out name) = .ok text := by
  refine Directory.read_eq_ok_iff.mpr ⟨.text text, ?_, rfl⟩
  exact Directory.status_eq_ok_iff.mpr ⟨k ++ [name], h.locate_join hname, hfile⟩

/-- Making a file succeeds and changes nothing else. -/
theorem exists_runs_create (h : PlaceAt d out k)
    (hname : FilePath (Files.join out name) (Files.names out) name)
    (hfree : d.at? (k ++ [name]) ≠ some .directory) :
    ∃ d', Runs (attempt a (Files.join out name) (Storage.create (Files.join out name))) d () d' ∧
      Rewritten (fun l => l = k ++ [name]) d d' ∧ d'.at? (k ++ [name]) = some (.file (.text "")) := by
  have hroot : k ++ [name] ≠ [] := List.append_ne_nil_of_right_ne_nil k (List.cons_ne_nil _ _)
  have hcreate := Directory.create_eq hname (h.locate_join hname) hfree
  refine ⟨_, Runs.attempt_change hcreate, Directory.rewritten_put hroot hfree, ?_⟩
  rw [Directory.at?_put d _ _ _ hroot, if_pos rfl]
  rfl

/-- Writing to a file that has been made succeeds and changes nothing else. -/
theorem exists_runs_overwrite (h : PlaceAt d out k) (text : String)
    (hname : FilePath (Files.join out name) (Files.names out) name)
    (hempty : d.at? (k ++ [name]) = some (.file (.text ""))) :
    ∃ d', Runs (attempt a (Files.join out name) (Storage.overwrite (Files.join out name) text)) d () d' ∧
      Rewritten (fun l => l = k ++ [name]) d d' ∧ d'.at? (k ++ [name]) = some (.file (.text text)) := by
  have hroot : k ++ [name] ≠ [] := List.append_ne_nil_of_right_ne_nil k (List.cons_ne_nil _ _)
  have hfree : d.at? (k ++ [name]) ≠ some .directory := by
    rw [hempty]
    nofun
  have hwrite := Directory.overwrite_eq (s := text) (h.locate_join hname) hempty
  refine ⟨_, Runs.attempt_change hwrite, Directory.rewritten_put hroot hfree, ?_⟩
  rw [Directory.at?_put d _ _ _ hroot, if_pos rfl]

end PlaceAt

end RepairCorpus.Work
