import Mathlib.Data.List.Nodup
import Mathlib.Data.List.Induction
import RepairCorpus.Corpus.Buckets

/-!
# The order of first sight

Projects are given their buckets one by one while a corpus is gone through, and what a project is given
depends on all that came before it.  In the end the bucket can be read off the list of all projects,
each as often as it occurs: it is the place of the project in the order of first sight, modulo the
number of buckets.  Nothing that is seen later moves that place.

* `eraseDups_concat`, `nodup_eraseDups`: the order of first sight, which is the list without its
  repetitions.
* `bucketOf`: the bucket that a list of projects gives to one of them.
* `Buckets.Saw`: an assignment that has seen a list of projects.
* `Buckets.Saw.assign`: **a project is assigned the bucket that the list gives it**.
* `Buckets.bucket?_seeAll`: it has that bucket when all projects have been seen.
* `bucketOf_append`: the projects that come later do not matter.
-/

namespace RepairCorpus

section FirstSight

variable {α : Type} [DecidableEq α]

/-- One more item is new, or it has been seen. -/
theorem eraseDups_concat (xs : List α) (x : α) :
    (xs ++ [x]).eraseDups = if x ∈ xs then xs.eraseDups else xs.eraseDups ++ [x] := by
  rw [List.eraseDups_append]
  split
  next h =>
    have hnone : [x].removeAll xs = [] := by simpa [List.removeAll] using h
    rw [hnone, List.eraseDups_nil, List.append_nil]
  next h =>
    have hnew : [x].removeAll xs = [x] := by simpa [List.removeAll] using h
    rw [hnew]
    rfl

theorem nodup_eraseDups (xs : List α) : xs.eraseDups.Nodup := by
  induction xs using List.reverseRecOn with
  | nil => exact List.nodup_nil
  | append_singleton xs x ih =>
    rw [eraseDups_concat]
    split
    next => exact ih
    next h =>
      rw [List.nodup_append]
      refine ⟨ih, List.nodup_singleton x, fun y hy z hz heq => h ?_⟩
      rw [List.mem_singleton] at hz
      rw [← hz, ← heq]
      exact List.mem_eraseDups.mp hy

end FirstSight

/-- The bucket that a list of projects gives to one of them: its place in the order of first sight, modulo
the number of buckets, of which there is at least one. -/
def bucketOf (count : Nat) (projects : List String) (project : String) : Nat :=
  projects.eraseDups.idxOf project % max count 1

/-- **The projects that come later do not matter.** -/
theorem bucketOf_append {count : Nat} {seen : List String} {project : String} (h : project ∈ seen)
    (later : List String) : bucketOf count (seen ++ later) project = bucketOf count seen project := by
  rw [bucketOf, bucketOf, List.eraseDups_append,
    List.idxOf_append_of_mem (List.mem_eraseDups.mpr h)]

namespace Buckets

/-- `b.Saw count seen` holds if an assignment to `count` buckets has seen some projects. -/
structure Saw (b : Buckets) (count : Nat) (seen : List String) : Prop where
  count : b.count = max count 1
  projects : b.projects = seen.eraseDups

theorem saw_new (count : Nat) : (new count).Saw count [] := ⟨rfl, rfl⟩

/-- A project that has been seen is in the bucket that the list gives it. -/
theorem Saw.bucket?_eq {b : Buckets} {count : Nat} {seen : List String} (h : b.Saw count seen)
    {project : String} (hseen : project ∈ seen) :
    b.bucket? project = some (bucketOf count seen project) := by
  have hmem : project ∈ b.projects := by
    rw [h.projects]
    exact List.mem_eraseDups.mpr hseen
  obtain ⟨i, hi⟩ := Option.ne_none_iff_exists'.mp fun hnone =>
    List.idxOf?_eq_none_iff.mp hnone hmem
  have hplace : b.projects.idxOf project = i := by
    rw [List.idxOf_eq_getD_idxOf?, hi]
    rfl
  rw [bucket?, hi, bucketOf, ← h.projects, hplace, ← h.count]
  rfl

/-- A project that has not been seen is in no bucket. -/
theorem Saw.bucket?_eq_none {b : Buckets} {count : Nat} {seen : List String} (h : b.Saw count seen)
    {project : String} (hnew : project ∉ seen) : b.bucket? project = none := by
  have hnew' : project ∉ b.projects := by
    rw [h.projects]
    exact fun hmem => hnew (List.mem_eraseDups.mp hmem)
  rw [bucket?, List.idxOf?_eq_none_iff.mpr hnew']
  rfl

/-- **A project is assigned the bucket that the list gives it.** -/
theorem Saw.assign {b : Buckets} {count : Nat} {seen : List String} (h : b.Saw count seen)
    (project : String) :
    (b.assign project).1 = bucketOf count (seen ++ [project]) project ∧
      (b.assign project).2.Saw count (seen ++ [project]) := by
  by_cases hseen : project ∈ seen
  · rw [assign_of_eq_some (h.bucket?_eq hseen), bucketOf_append hseen]
    refine ⟨rfl, h.count, ?_⟩
    rw [eraseDups_concat, if_pos hseen, h.projects]
  · have hnew : project ∉ b.projects := by
      rw [h.projects]
      exact fun hmem => hseen (List.mem_eraseDups.mp hmem)
    have hlater : (seen ++ [project]).eraseDups = b.projects ++ [project] := by
      rw [eraseDups_concat, if_neg hseen, h.projects]
    rw [assign_of_eq_none (h.bucket?_eq_none hseen), bucketOf, hlater, List.idxOf_append_of_notMem hnew,
      List.idxOf_cons_self, Nat.add_zero, ← h.count]
    exact ⟨rfl, h.count, hlater.symm⟩

/-- The assignment after some projects have been seen, one after the other. -/
def seeAll (b : Buckets) (projects : List String) : Buckets :=
  projects.foldl (fun b project => (b.assign project).2) b

theorem Saw.seeAll {b : Buckets} {count : Nat} {seen : List String} (h : b.Saw count seen)
    (projects : List String) : (b.seeAll projects).Saw count (seen ++ projects) := by
  induction projects generalizing b seen with
  | nil =>
    rw [List.append_nil]
    exact h
  | cons project projects ih =>
    rw [List.append_cons]
    exact ih (h.assign project).2

/-- **The bucket of a project at the end** is the one that the list gives it. -/
theorem bucket?_seeAll {count : Nat} {projects : List String} {project : String}
    (h : project ∈ projects) :
    ((new count).seeAll projects).bucket? project = some (bucketOf count projects project) :=
  ((saw_new count).seeAll projects).bucket?_eq h

end Buckets

end RepairCorpus
