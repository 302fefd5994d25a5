import Mathlib.Data.Int.CardIntervalMod
import RepairCorpus.Corpus.BucketTable
import RepairCorpus.Proofs.Corpus.FirstSight

/-!
# Loads of buckets

A table of buckets gives a project the number of projects it has by then, modulo the number of buckets.
What a run of calls comes to is settled by two facts that every call keeps: the table is as large as the
order of first sight is long, and each project is in the bucket that its place in that order gives it.
The buckets are then dealt out in turn, and no bucket is ever ahead of another by more than one project.

* `BucketTable.Keeps`, `Keeps.assign`: the invariant, and that a call keeps it.
* `Keeps.assignAll`: the buckets that a run of calls is given.
* `Keeps.load_eq`: the number of projects in a bucket.
* `BucketTable.round_robin`: **a run of calls deals out the buckets in turn**, stably and evenly.
* `BucketTable.answers_alike`: the table answers as the list of projects in the order of first sight does.
-/

namespace RepairCorpus

variable {count : Nat} {seen : List String} {project : String}

/-! ## The order of first sight -/

/-- As many projects are first seen as there are different ones. -/
theorem length_eraseDups (seen : List String) : seen.eraseDups.length = seen.toFinset.card := by
  rw [← List.toFinset_card_of_nodup (nodup_eraseDups seen)]
  refine congrArg Finset.card (Finset.ext fun project => ?_)
  rw [List.mem_toFinset, List.mem_toFinset, List.mem_eraseDups]

/-- A project that has not been seen gets the number of those that have, modulo the number of buckets. -/
theorem bucketOf_concat_of_notMem (h : project ∉ seen) :
    bucketOf count (seen ++ [project]) project = seen.eraseDups.length % max count 1 := by
  have hnew : project ∉ seen.eraseDups := fun hmem => h (List.mem_eraseDups.mp hmem)
  rw [bucketOf, eraseDups_concat, if_neg h, List.idxOf_append_of_notMem hnew, List.idxOf_cons_self,
    Nat.add_zero]

/-- In the order of first sight the buckets come in turn. -/
theorem map_bucketOf_eraseDups (count : Nat) (seen : List String) :
    seen.eraseDups.map (bucketOf count seen) =
      (List.range seen.eraseDups.length).map (· % max count 1) := by
  refine List.ext_getElem (by rw [List.length_map, List.length_map, List.length_range]) fun i hi _ => ?_
  rw [List.getElem_map, List.getElem_map, List.getElem_range, bucketOf,
    (nodup_eraseDups seen).idxOf_getElem]

namespace BucketTable

variable {t : BucketTable}

/-! ## One call -/

/-- `t.Keeps count seen` holds if a table with `count` buckets has been asked for some projects, in some
order. -/
structure Keeps (t : BucketTable) (count : Nat) (seen : List String) : Prop where
  count_eq : t.count = max count 1
  size_eq : t.size = seen.eraseDups.length
  found : ∀ project ∈ seen, t.bucket? project = some (bucketOf count seen project)
  missing : ∀ project, project ∉ seen → t.bucket? project = none

theorem keeps_new (count : Nat) : (new count).Keeps count [] where
  count_eq := rfl
  size_eq := rfl
  found _ h := absurd h List.not_mem_nil
  missing _ _ := Std.HashMap.getElem?_empty

theorem assign_of_eq_some {i : Nat} (h : t.bucket? project = some i) : t.assign project = (i, t) := by
  rw [assign, h]

theorem assign_of_eq_none (h : t.bucket? project = none) :
    t.assign project =
      (t.size % t.count, { t with table := t.table.insert project (t.size % t.count) }) := by
  rw [assign, h]

/-- **A call** gives the bucket that the projects so far and this one tell, and keeps that. -/
theorem Keeps.assign (h : t.Keeps count seen) (project : String) :
    (t.assign project).1 = bucketOf count (seen ++ [project]) project ∧
      (t.assign project).2.Keeps count (seen ++ [project]) := by
  by_cases hseen : project ∈ seen
  · rw [assign_of_eq_some (h.found project hseen), bucketOf_append hseen]
    refine ⟨rfl, h.count_eq, ?_, fun q hq => ?_, fun q hq => ?_⟩
    · rw [eraseDups_concat, if_pos hseen, h.size_eq]
    · have hq' : q ∈ seen := by
        rcases List.mem_append.mp hq with hq | hq
        · exact hq
        · exact List.mem_singleton.mp hq ▸ hseen
      rw [h.found q hq', bucketOf_append hq']
    · exact h.missing q fun hq' => hq (List.mem_append_left _ hq')
  · have hnone := h.missing project hseen
    have hbucket : t.size % t.count = bucketOf count (seen ++ [project]) project := by
      rw [bucketOf_concat_of_notMem hseen, h.size_eq, h.count_eq]
    have hnew : project ∉ t.table := fun hmem => by
      have hsome := Std.HashMap.mem_iff_isSome_getElem?.mp hmem
      rw [show t.table[project]? = none from hnone] at hsome
      cases hsome
    have hlookup (q : String) : (t.table.insert project (t.size % t.count))[q]? =
        if q = project then some (t.size % t.count) else t.bucket? q := by
      rw [Std.HashMap.getElem?_insert]
      by_cases hq : q = project
      · rw [if_pos (beq_iff_eq.mpr hq.symm), if_pos hq]
      · rw [if_neg fun heq => hq (beq_iff_eq.mp heq).symm, if_neg hq]
        rfl
    rw [assign_of_eq_none hnone]
    refine ⟨hbucket, h.count_eq, ?_, fun q hq => ?_, fun q hq => ?_⟩
    · rw [size, Std.HashMap.size_insert, if_neg hnew, eraseDups_concat, if_neg hseen, List.length_append,
        ← h.size_eq]
      rfl
    · rw [bucket?, hlookup]
      split
      next heq => rw [heq, hbucket]
      next hne =>
        have hq' : q ∈ seen := (List.mem_append.mp hq).resolve_right fun hq =>
          hne (List.mem_singleton.mp hq)
        rw [h.found q hq', bucketOf_append hq']
    · obtain ⟨hq', hne⟩ := not_or.mp (List.mem_append.not.mp hq)
      rw [bucket?, hlookup, if_neg fun heq => hne (List.mem_singleton.mpr heq)]
      exact h.missing q hq'

/-! ## Runs of calls -/

/-- Assigns projects one after the other. -/
def assignAll (t : BucketTable) : List String → List Nat × BucketTable
  | [] => ([], t)
  | project :: projects =>
    let (i, t) := t.assign project
    let (is, t) := t.assignAll projects
    (i :: is, t)

/-- **A run of calls** is given the buckets that all its projects tell, and keeps that. -/
theorem Keeps.assignAll (h : t.Keeps count seen) (projects : List String) :
    (t.assignAll projects).1 = projects.map (bucketOf count (seen ++ projects)) ∧
      (t.assignAll projects).2.Keeps count (seen ++ projects) := by
  induction projects generalizing t seen with
  | nil =>
    rw [List.append_nil]
    exact ⟨rfl, h⟩
  | cons project projects ih =>
    obtain ⟨hfirst, hkeeps⟩ := h.assign project
    obtain ⟨hrest, hall⟩ := ih hkeeps
    have hmem : project ∈ seen ++ [project] := List.mem_append_right _ (.head _)
    rw [List.append_cons]
    refine ⟨?_, hall⟩
    rw [BucketTable.assignAll, List.map_cons, bucketOf_append hmem, ← hfirst, ← hrest]

/-! ## Loads -/

/-- The number of projects in a bucket. -/
def load (t : BucketTable) (bucket : Nat) : Nat := t.table.toList.countP fun e => e.2 = bucket

/-- The entries of a table are the projects in the order of first sight with their buckets, in some
order. -/
theorem Keeps.perm_toList (h : t.Keeps count seen) :
    t.table.toList.Perm (seen.eraseDups.map fun project => (project, bucketOf count seen project)) := by
  have hdistinct : t.table.toList.Nodup := by
    refine Std.HashMap.distinct_keys_toList.imp fun {a b} hne heq => ?_
    rw [heq, beq_self_eq_true] at hne
    cases hne
  have hnodup : (seen.eraseDups.map fun project => (project, bucketOf count seen project)).Nodup :=
    (nodup_eraseDups seen).map fun _ _ heq => (Prod.mk.inj heq).1
  refine (List.perm_ext_iff_of_nodup hdistinct hnodup).mpr fun e => ?_
  obtain ⟨project, i⟩ := e
  rw [Std.HashMap.mem_toList_iff_getElem?_eq_some, List.mem_map]
  constructor
  · intro hi
    have hseen : project ∈ seen := by
      by_contra hnot
      cases (h.missing project hnot).symm.trans hi
    cases (h.found project hseen).symm.trans hi
    exact ⟨project, List.mem_eraseDups.mpr hseen, rfl⟩
  · rintro ⟨q, hq, heq⟩
    cases heq
    exact h.found project (List.mem_eraseDups.mp hq)

/-- **The number of projects in a bucket**: a share of all projects, rounded up for the first buckets and
down for the others. -/
theorem Keeps.load_eq (h : t.Keeps count seen) {bucket : Nat} (hbucket : bucket < max count 1) :
    t.load bucket = seen.eraseDups.length / max count 1 +
      if bucket < seen.eraseDups.length % max count 1 then 1 else 0 := by
  have hcount : 0 < max count 1 := Nat.lt_of_lt_of_le Nat.one_pos (Nat.le_max_right count 1)
  have hload : t.load bucket =
      (seen.eraseDups.map (bucketOf count seen)).countP fun i => i = bucket := by
    rw [load, h.perm_toList.countP_eq, List.countP_map, List.countP_map]
    rfl
  have hturns : t.load bucket = seen.eraseDups.length.count (· ≡ bucket [MOD max count 1]) := by
    rw [hload, map_bucketOf_eraseDups, List.countP_map]
    refine List.countP_congr fun i _ => ?_
    rw [Function.comp_apply, decide_eq_true_eq, decide_eq_true_eq]
    show i % max count 1 = bucket ↔ i % max count 1 = bucket % max count 1
    rw [Nat.mod_eq_of_lt hbucket]
  rw [hturns, Nat.count_modEq_card _ hcount, Nat.mod_eq_of_lt hbucket]

/-- No bucket is ahead of another one by more than one project. -/
theorem Keeps.load_le (h : t.Keeps count seen) {i j : Nat} (hi : i < max count 1) (hj : j < max count 1) :
    t.load i ≤ t.load j + 1 := by
  rw [h.load_eq hi, h.load_eq hj]
  split <;> split <;> omega

/-! ## Dealing out buckets -/

/-- **A run of calls deals out the buckets in turn.**  Calls for one project are given one bucket; a project
that is called for the first time is given the number of different projects before it, modulo the number
of buckets, of which there is at least one; a project is found in the bucket that any call for it was
given, and not found if there was none; and after any number of calls no bucket is ahead of another by
more than one project. -/
theorem round_robin (count : Nat) (calls : List String) :
    ∃ given t, (new count).assignAll calls = (given, t) ∧ given.length = calls.length ∧
      (∀ i j : Nat, calls[i]? = calls[j]? → given[i]? = given[j]?) ∧
      (∀ before project after, calls = before ++ project :: after → project ∉ before →
        given[before.length]? = some (before.toFinset.card % max count 1)) ∧
      (∀ (i : Nat) project, calls[i]? = some project → t.bucket? project = given[i]?) ∧
      (∀ project, project ∉ calls → t.bucket? project = none) ∧
      ∀ n i j, i < max count 1 → j < max count 1 →
        ((new count).assignAll (calls.take n)).2.load i ≤
          ((new count).assignAll (calls.take n)).2.load j + 1 := by
  obtain ⟨hgiven, hkeeps⟩ := (keeps_new count).assignAll calls
  rw [List.nil_append] at hgiven hkeeps
  refine ⟨_, _, rfl, ?_, fun i j hij => ?_, fun before project after hcalls hnew => ?_,
    fun i project hi => ?_, hkeeps.missing, fun n i j hi hj => ?_⟩
  · rw [hgiven, List.length_map]
  · rw [hgiven, List.getElem?_map, List.getElem?_map, hij]
  · have hmem : project ∈ before ++ [project] := List.mem_append_right _ (.head _)
    rw [hgiven, hcalls, List.getElem?_map, List.getElem?_append_right (Nat.le_refl _),
      Nat.sub_self, List.getElem?_cons_zero, Option.map_some,
      List.append_cons, bucketOf_append hmem, bucketOf_concat_of_notMem hnew, length_eraseDups]
  · rw [hgiven, List.getElem?_map, hi, Option.map_some]
    exact hkeeps.found project (List.mem_of_getElem? hi)
  · exact ((keeps_new count).assignAll (calls.take n)).2.load_le hi hj

/-- **The table answers as the list does** that holds the projects in the order of first sight: after the
same calls both give the next project the same bucket and find every project in the same one. -/
theorem answers_alike (count : Nat) (calls : List String) (project : String) :
    (((new count).assignAll calls).2.assign project).1 =
        (((Buckets.new count).seeAll calls).assign project).1 ∧
      ((new count).assignAll calls).2.bucket? project =
        ((Buckets.new count).seeAll calls).bucket? project := by
  have hkeeps := ((keeps_new count).assignAll calls).2
  have hsaw := (Buckets.saw_new count).seeAll calls
  refine ⟨(hkeeps.assign project).1.trans (hsaw.assign project).1.symm, ?_⟩
  by_cases hseen : project ∈ [] ++ calls
  · rw [hkeeps.found project hseen, hsaw.bucket?_eq hseen]
  · rw [hkeeps.missing project hseen, hsaw.bucket?_eq_none hseen]

end BucketTable

end RepairCorpus
