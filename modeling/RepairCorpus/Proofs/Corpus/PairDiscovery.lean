import Mathlib.Data.List.Nodup
import RepairCorpus.Corpus.Filter
import RepairCorpus.Proofs.Corpus.PairNames
import RepairCorpus.Proofs.Files.Worlds

/-!
# Finding pairs again

Finding the pairs of a directory is meant to undo the naming of sequence files.  It does so for the names that
a sink gives, but it looks for the parts of a name at its end only and reads the number in it, and so two
kinds of names get in between: a name whose number cannot be read makes it fail, and a name that differs from
that of a sequence file only in front of its end or in zeros before the number is taken for it.  What is
shown here is what becomes of all these names, and that nothing else gets in between.

* `FilePair.Holds`: a path in the pairs that have been found.
* `FilePair.exists_ofNames_iff`: when names can be sorted into pairs.
* `FilePair.holds_of_ofNames`, `FilePair.exists_holds_of_ofNames`: **what is found has been listed, and what
  is listed is found**.
* `FilePair.ofNames_filter`: only names that are recognised matter.
* `Corpus.Discovery`, `Corpus.findPairs_undoes_naming`: **what is found in a directory**.
-/

namespace RepairCorpus

open Files (Directory)

variable {names : List String} {name path path' dir : String} {ps qs : List FilePair} {f : SequenceKey}
  {category : Category} {bucket : Nat} {role : Role}

/-! ## Names in a directory -/

namespace Files

/-- A text behind a name goes to the end of its path. -/
theorem join_append (dir : String) {a : String} (b : String) (ha : a ≠ "") :
    join dir (a ++ b) = join dir a ++ b := by
  have habsolute : isAbsolute (a ++ b) = isAbsolute a := by
    have hne : a.toList ≠ [] := fun h => ha (String.toList_injective h)
    rw [isAbsolute, isAbsolute, String.toList_append, List.head?_append_of_ne_nil _ hne]
  rw [join, join, habsolute]
  split
  next => rfl
  next =>
    split
    next => exact (String.append_assoc).symm
    next => exact (String.append_assoc).symm

end Files

/-- The path of a sequence file is its name in the directory. -/
theorem join_path (dir : String) (f : SequenceKey) :
    Files.join dir (f.path "seq") = f.path (Files.join dir "seq") := by
  rw [SequenceKey.path_eq, SequenceKey.path_eq]
  exact Files.join_append dir f.tail (by decide)

/-! ## Pairs that have been found -/

namespace FilePair

/-- What pairs belong to. -/
def key (p : FilePair) : Category × Nat := (p.category, p.bucket)

/-- The path of one side. -/
def side? (p : FilePair) : Role → Option String
  | .buggy => p.buggy
  | .correct => p.correct
  | .single => none

/-- `Holds ps f path` holds if a path stands in pairs as that of the file of `f`. -/
def Holds (ps : List FilePair) (f : SequenceKey) (path : String) : Prop :=
  ∃ p ∈ ps, p.category = f.category ∧ some p.bucket = f.bucket ∧ p.side? f.role = some path

theorem key_withPath (p : FilePair) (role : Role) (path : String) : (p.withPath role path).key = p.key := by
  cases role <;> rfl

theorem side?_withPath (p : FilePair) {role : Role} (hrole : role ≠ .single) (role' : Role) (path : String) :
    (p.withPath role path).side? role' = if role' = role then some path else p.side? role' := by
  cases role <;> cases role' <;> first | rfl | exact absurd rfl hrole

/-- Putting a path into pairs makes a new pair at most. -/
theorem map_key_put : (put category bucket role path ps).map key =
    if (category, bucket) ∈ ps.map key then ps.map key else ps.map key ++ [(category, bucket)] := by
  induction ps with
  | nil =>
    rw [put, List.map_singleton, key_withPath]
    rfl
  | cons p ps ih =>
    rw [put, List.map_cons]
    by_cases hkey : p.category = category ∧ p.bucket = bucket
    · obtain ⟨rfl, rfl⟩ := hkey
      rw [if_pos ⟨rfl, rfl⟩, List.map_cons, key_withPath, if_pos (.head _)]
    · have hne : (category, bucket) ≠ p.key := fun heq =>
        hkey ⟨(Prod.mk.inj heq).1.symm, (Prod.mk.inj heq).2.symm⟩
      rw [if_neg hkey, List.map_cons, ih]
      simp only [List.mem_cons, hne, false_or]
      split <;> rfl

theorem nodup_put (h : (ps.map key).Nodup) : ((put category bucket role path ps).map key).Nodup := by
  rw [map_key_put]
  split
  next => exact h
  next hnew =>
    refine List.nodup_append.mpr ⟨h, List.nodup_singleton _, fun k hk k' hk' => ?_⟩
    rw [List.mem_singleton.mp hk']
    exact fun heq => hnew (heq ▸ hk)

/-- In pairs of different things there is at most one path for a file. -/
theorem Holds.unique (h : (ps.map key).Nodup) (hp : Holds ps f path) (hq : Holds ps f path') :
    path = path' := by
  obtain ⟨p, hp, hcategory, hbucket, hpath⟩ := hp
  obtain ⟨q, hq, hcategory', hbucket', hpath'⟩ := hq
  have hkey : p.key = q.key :=
    Prod.ext (hcategory.trans hcategory'.symm) (Option.some.inj (hbucket.trans hbucket'.symm))
  obtain rfl := List.inj_on_of_nodup_map h hp hq hkey
  exact Option.some.inj (hpath.symm.trans hpath')

/-- Putting a path into pairs changes one of them or makes a new one. -/
theorem put_eq (category : Category) (bucket : Nat) (role : Role) (path : String) (ps : List FilePair) :
    (∃ front p back, ps = front ++ p :: back ∧ p.key = (category, bucket) ∧
      put category bucket role path ps = front ++ p.withPath role path :: back) ∨
    put category bucket role path ps =
      ps ++ [(⟨category, bucket, none, none⟩ : FilePair).withPath role path] := by
  induction ps with
  | nil => exact Or.inr rfl
  | cons p ps ih =>
    rw [put]
    split
    next hkey => exact Or.inl ⟨[], p, ps, rfl, Prod.ext hkey.1 hkey.2, rfl⟩
    next =>
      rcases ih with ⟨front, q, back, rfl, hq, hput⟩ | hput
      · exact Or.inl ⟨p :: front, q, back, rfl, hq, congrArg (p :: ·) hput⟩
      · exact Or.inr (congrArg (p :: ·) hput)

/-- The path that has been put is there. -/
theorem holds_put_self (hrole : role ≠ .single) :
    Holds (put category bucket role path ps) ⟨category, some bucket, role⟩ path := by
  have hheld {p : FilePair} (hkey : p.key = (category, bucket)) (hmem : p.withPath role path ∈
      put category bucket role path ps) :
      Holds (put category bucket role path ps) ⟨category, some bucket, role⟩ path := by
    obtain ⟨hcategory, hbucket⟩ := Prod.mk.inj ((key_withPath p role path).trans hkey)
    exact ⟨_, hmem, hcategory, congrArg some hbucket, (side?_withPath p hrole role path).trans (if_pos rfl)⟩
  rcases put_eq category bucket role path ps with ⟨front, p, back, -, hkey, hput⟩ | hput
  · exact hheld hkey (by rw [hput]; exact List.mem_append_right _ (.head _))
  · exact hheld (p := ⟨category, bucket, none, none⟩) rfl
      (by rw [hput]; exact List.mem_append_right _ (.head _))

/-- The paths of other files stay. -/
theorem holds_put_of_ne (hrole : role ≠ .single) (hne : f ≠ ⟨category, some bucket, role⟩)
    (h : Holds ps f path') : Holds (put category bucket role path ps) f path' := by
  obtain ⟨q, hq, hcategory, hbucket, hpath⟩ := h
  rcases put_eq category bucket role path ps with ⟨front, p, back, rfl, hkey, hput⟩ | hput
  · rw [hput]
    rcases List.mem_append.mp hq with hq | hq
    · exact ⟨q, List.mem_append_left _ hq, hcategory, hbucket, hpath⟩
    · rcases List.mem_cons.mp hq with rfl | hq
      · obtain ⟨rfl, rfl⟩ := Prod.mk.inj hkey
        have hother : f.role ≠ role := by
          rintro rfl
          refine hne ?_
          rw [hcategory, hbucket]
        obtain ⟨hcategory', hbucket'⟩ := Prod.mk.inj (key_withPath q role path)
        refine ⟨q.withPath role path, List.mem_append_right _ (.head _), hcategory'.trans hcategory,
          (congrArg some hbucket').trans hbucket, ?_⟩
        rw [side?_withPath q hrole, if_neg hother, hpath]
      · exact ⟨q, List.mem_append_right _ (.tail _ hq), hcategory, hbucket, hpath⟩
  · rw [hput]
    exact ⟨q, List.mem_append_left _ hq, hcategory, hbucket, hpath⟩

/-- No other path comes in. -/
theorem eq_or_holds_of_holds_put (hrole : role ≠ .single)
    (h : Holds (put category bucket role path ps) f path') :
    f = ⟨category, some bucket, role⟩ ∧ path' = path ∨ Holds ps f path' := by
  obtain ⟨q, hq, hcategory, hbucket, hpath⟩ := h
  -- the pair that has been changed or made
  have hchanged {p : FilePair} (hkey : p.key = (category, bucket)) (heq : q = p.withPath role path)
      (hold : p.side? f.role = some path' → Holds ps f path') :
      f = ⟨category, some bucket, role⟩ ∧ path' = path ∨ Holds ps f path' := by
    subst heq
    obtain ⟨hcategory', hbucket'⟩ := Prod.mk.inj ((key_withPath p role path).trans hkey)
    rw [side?_withPath p hrole] at hpath
    split at hpath
    next hsame =>
      refine Or.inl ⟨?_, (Option.some.inj hpath).symm⟩
      rw [← hsame, ← hcategory', hcategory, ← hbucket', hbucket]
    next => exact Or.inr (hold hpath)
  rcases put_eq category bucket role path ps with ⟨front, p, back, rfl, hkey, hput⟩ | hput
  · rw [hput] at hq
    rcases List.mem_append.mp hq with hq | hq
    · exact Or.inr ⟨q, List.mem_append_left _ hq, hcategory, hbucket, hpath⟩
    · rcases List.mem_cons.mp hq with heq | hq
      · refine hchanged hkey heq fun hside => ⟨p, List.mem_append_right _ (.head _), ?_, ?_, hside⟩
        · rw [← hcategory, heq, (Prod.mk.inj (key_withPath p role path)).1]
        · rw [← hbucket, heq, (Prod.mk.inj (key_withPath p role path)).2]
      · exact Or.inr ⟨q, List.mem_append_right _ (.tail _ hq), hcategory, hbucket, hpath⟩
  · rw [hput] at hq
    rcases List.mem_append.mp hq with hq | hq
    · exact Or.inr ⟨q, hq, hcategory, hbucket, hpath⟩
    · refine hchanged (p := ⟨category, bucket, none, none⟩) rfl (List.mem_singleton.mp hq) fun hside => ?_
      cases hfrole : f.role <;> rw [hfrole] at hside <;> cases hside

/-! ## Sorting names into pairs -/

theorem holds_mergeSort : Holds (ps.mergeSort precedes) f path ↔ Holds ps f path := by
  refine exists_congr fun p => ?_
  rw [(List.mergeSort_perm ps precedes).mem_iff]

/-- Names can be sorted if all their numbers can be read. -/
theorem exists_ofNames_iff : (∃ qs, ofNames dir ps names = .ok qs) ↔
    ∀ name ∈ names, ∀ p : PairName, p.Ends name → ∃ b, p.bucket = .ok b := by
  induction names generalizing ps with
  | nil => exact iff_of_true ⟨_, rfl⟩ nofun
  | cons name names ih =>
    rw [ofNames, List.forall_mem_cons]
    cases hparse : PairName.parse? name with
    | none =>
      rw [ih, and_iff_right]
      intro p hp
      rw [PairName.parse?_eq_some_iff.mpr hp] at hparse
      cases hparse
    | some p =>
      have hone : (∀ q : PairName, q.Ends name → ∃ b, q.bucket = .ok b) ↔ ∃ b, p.bucket = .ok b := by
        refine ⟨fun h => h p (PairName.parse?_eq_some_iff.mp hparse), fun h q hq => ?_⟩
        rw [PairName.parse?_eq_some_iff.mpr hq, Option.some.injEq] at hparse
        exact hparse ▸ h
      rw [hone]
      cases hbucket : p.bucket with
      | error fault =>
        refine iff_of_false (fun ⟨qs, hqs⟩ => ?_) fun ⟨⟨b, hb⟩, _⟩ => nomatch hb
        dsimp only at hqs
        rw [hbucket] at hqs
        cases hqs
      | ok b =>
        dsimp only
        rw [hbucket, and_iff_right ⟨b, rfl⟩]
        exact ih

/-- If names cannot be sorted, there is one of them whose number cannot be read. -/
theorem ofNames_eq_error {t : Trouble} (h : ofNames dir ps names = .error t) :
    ∃ name ∈ names, ∃ p : PairName, ∃ fault, p.Ends name ∧ p.bucket = .error fault ∧
      t = .bucketNumber name fault := by
  induction names generalizing ps with
  | nil => cases h
  | cons name names ih =>
    rw [ofNames] at h
    split at h
    next =>
      obtain ⟨name', hmem, hfault⟩ := ih h
      exact ⟨name', .tail _ hmem, hfault⟩
    next p hparse =>
      split at h
      next fault hbucket =>
        cases h
        exact ⟨name, .head _, p, fault, PairName.parse?_eq_some_iff.mp hparse, hbucket, rfl⟩
      next =>
        obtain ⟨name', hmem, hfault⟩ := ih h
        exact ⟨name', .tail _ hmem, hfault⟩

theorem nodup_ofNames (hps : (ps.map key).Nodup) (h : ofNames dir ps names = .ok qs) :
    (qs.map key).Nodup := by
  induction names generalizing ps with
  | nil =>
    cases h
    exact ((List.mergeSort_perm ps precedes).map key).nodup_iff.mpr hps
  | cons name names ih =>
    rw [ofNames] at h
    split at h
    next => exact ih hps h
    next p _ =>
      split at h
      next => cases h
      next => exact ih (nodup_put hps) h

/-- **What is found has been listed**: every path is that of a name that denotes its file. -/
theorem holds_of_ofNames (h : ofNames dir ps names = .ok qs) (hholds : Holds qs f path) :
    (∃ name ∈ names, Denotes name f ∧ path = Files.join dir name) ∨ Holds ps f path := by
  induction names generalizing ps with
  | nil =>
    cases h
    exact Or.inr (holds_mergeSort.mp hholds)
  | cons name names ih =>
    have hlater {ps' : List FilePair} (h : ofNames dir ps' names = .ok qs) :
        (∃ name' ∈ name :: names, Denotes name' f ∧ path = Files.join dir name') ∨ Holds ps' f path := by
      rcases ih h with ⟨name', hmem, hname'⟩ | hbefore
      · exact Or.inl ⟨name', .tail _ hmem, hname'⟩
      · exact Or.inr hbefore
    rw [ofNames] at h
    split at h
    next => exact hlater h
    next p hparse =>
      split at h
      next => cases h
      next b hbucket =>
        rcases hlater h with hfound | hput
        · exact Or.inl hfound
        · have hends := PairName.parse?_eq_some_iff.mp hparse
          rcases eq_or_holds_of_holds_put hends.role hput with ⟨rfl, rfl⟩ | hbefore
          · exact Or.inl ⟨name, .head _, ⟨p, hends, b, hbucket, rfl⟩, rfl⟩
          · exact Or.inr hbefore

/-- **What is listed is found**: for every file that a name denotes there is a path. -/
theorem exists_holds_of_ofNames (h : ofNames dir ps names = .ok qs)
    (hlisted : (∃ name ∈ names, Denotes name f) ∨ ∃ path, Holds ps f path) : ∃ path, Holds qs f path := by
  induction names generalizing ps with
  | nil =>
    cases h
    obtain ⟨path, hholds⟩ := hlisted.resolve_left fun ⟨_, hmem, _⟩ => absurd hmem List.not_mem_nil
    exact ⟨path, holds_mergeSort.mpr hholds⟩
  | cons name names ih =>
    rw [ofNames] at h
    split at h
    next hparse =>
      refine ih h ?_
      rcases hlisted with ⟨name', hmem, hdenotes⟩ | hbefore
      · rcases List.mem_cons.mp hmem with rfl | hmem
        · obtain ⟨p, hends, -⟩ := hdenotes
          rw [PairName.parse?_eq_some_iff.mpr hends] at hparse
          cases hparse
        · exact Or.inl ⟨name', hmem, hdenotes⟩
      · exact Or.inr hbefore
    next p hparse =>
      split at h
      next => cases h
      next b hbucket =>
        have hends := PairName.parse?_eq_some_iff.mp hparse
        refine ih h ?_
        by_cases hself : f = ⟨p.category, some b, p.role⟩
        · subst hself
          exact Or.inr ⟨_, holds_put_self hends.role⟩
        · rcases hlisted with ⟨name', hmem, hdenotes⟩ | ⟨path, hbefore⟩
          · rcases List.mem_cons.mp hmem with rfl | hmem
            · obtain ⟨q, hq, b', hb', rfl⟩ := hdenotes
              rw [PairName.parse?_eq_some_iff.mpr hq, Option.some.injEq] at hparse
              subst hparse
              cases hb'.symm.trans hbucket
              exact absurd rfl hself
            · exact Or.inl ⟨name', hmem, hdenotes⟩
          · exact Or.inr ⟨path, holds_put_of_ne hends.role hself hbefore⟩

/-- **Only names that are recognised matter.** -/
theorem ofNames_filter (dir : String) (ps : List FilePair) (names : List String) :
    ofNames dir ps (names.filter PairName.isPairName) = ofNames dir ps names := by
  induction names generalizing ps with
  | nil => rfl
  | cons name names ih =>
    cases hparse : PairName.parse? name with
    | none =>
      rw [List.filter_cons_of_neg (by rw [PairName.isPairName, hparse]; exact Bool.false_ne_true), ofNames,
        hparse]
      exact ih ps
    | some p =>
      rw [List.filter_cons_of_pos (by rw [PairName.isPairName, hparse]; rfl), ofNames, ofNames, hparse]
      dsimp only
      split
      next => rfl
      next => exact ih _

end FilePair

/-! ## Finding pairs in a directory -/

namespace Corpus

variable {d : Directory}

/-- Finding pairs is sorting the names that are listed; the files stay as they are. -/
theorem run_findPairs (h : d.list dir = .ok names) :
    (ExceptT.run (findPairs dir : Work (StateM Directory) (List FilePair))).run d =
      (FilePair.ofNames dir [] names, d) := by
  have hact : Hosted.act (Storage.list dir : StateM Directory _) ((), d) = (.ok names, (), d) := by
    rw [Hosted.act_list, ← h]
    rfl
  have hlist : Work.Runs (Work.attempt .listDirectory dir (Storage.list dir)) d names d :=
    (Work.Succeeds.attempt hact).runs
  rw [Work.Runs] at hlist
  rw [findPairs, ExceptT.run_bind, StateT.run_bind, hlist]
  show StateT.run (ExceptT.run (_ : Work (StateM Directory) (List FilePair))) d = _
  rcases FilePair.ofNames dir [] names with t | ps
  · rfl
  · rfl

/-- What is found among names, if their numbers can be read. -/
structure Found (dir : String) (names : List String) (ps : List FilePair) : Prop where
  /-- The pairs belong to different things. -/
  different : (ps.map FilePair.key).Nodup
  /-- There is at most one path for a file. -/
  unique : ∀ f path path', FilePair.Holds ps f path → FilePair.Holds ps f path' → path = path'
  /-- Every path is that of a listed file, whose name denotes what the path stands for. -/
  listed : ∀ f path, FilePair.Holds ps f path → ∃ name ∈ names, Denotes name f ∧ path = Files.join dir name
  /-- There is a path for everything that a listed name denotes. -/
  complete : ∀ f, ∀ name ∈ names, Denotes name f → ∃ path, FilePair.Holds ps f path
  /-- A name that no other one competes with is found, whatever stands in front of its end and however many
  zeros before its number. -/
  alone : ∀ f, ∀ name ∈ names, Denotes name f → (∀ name' ∈ names, Denotes name' f → name' = name) →
    ∀ path, FilePair.Holds ps f path ↔ path = Files.join dir name
  /-- A file that no other name denotes is found if and only if it is listed under its own name. -/
  named : ∀ category ∈ pairCategories, ∀ bucket < bucketBound, ∀ role, role ≠ .single →
    (∀ name ∈ names, Denotes name ⟨category, some bucket, role⟩ →
      name = sequencePath "seq" category (some bucket) role.extension) →
    ∀ path, FilePair.Holds ps ⟨category, some bucket, role⟩ path ↔
      path = sequencePath (Files.join dir "seq") category (some bucket) role.extension ∧
        sequencePath "seq" category (some bucket) role.extension ∈ names

/-- What finding pairs comes to in a directory with some names. -/
structure Discovery (d : Directory) (dir : String) (names : List String)
    (outcome : Except Trouble (List FilePair)) : Prop where
  /-- The files stay as they are. -/
  run : (ExceptT.run (findPairs dir : Work (StateM Directory) (List FilePair))).run d = (outcome, d)
  /-- It fails at a listed file only whose name ends like that of a file of pairs, but with a number that
  cannot be read. -/
  fails : ∀ t, outcome = .error t → ∃ name ∈ names, ∃ p : PairName, ∃ fault,
    p.Ends name ∧ p.bucket = .error fault ∧ t = .bucketNumber name fault
  /-- It does fail if there is such a file. -/
  refuses : ∀ name ∈ names, ∀ p : PairName, p.Ends name → (∃ fault, p.bucket = .error fault) →
    ∃ t, outcome = .error t
  /-- Unless it fails, it has found what is there. -/
  found : ∀ ps, outcome = .ok ps → Found dir names ps
  /-- Names that do not end like the name of a file of pairs do not matter. -/
  others : ∀ d' names', d'.list dir = .ok names' →
    names'.filter PairName.isPairName = names.filter PairName.isPairName →
    (ExceptT.run (findPairs dir : Work (StateM Directory) (List FilePair))).run d' = (outcome, d')

theorem nodup_found {ps : List FilePair} (h : FilePair.ofNames dir [] names = .ok ps) :
    (ps.map FilePair.key).Nodup := by
  refine FilePair.nodup_ofNames ?_ h
  exact List.nodup_nil

theorem found_of_ofNames {ps : List FilePair} (h : FilePair.ofNames dir [] names = .ok ps) :
    Found dir names ps := by
  have hlisted : ∀ f path, FilePair.Holds ps f path →
      ∃ name ∈ names, Denotes name f ∧ path = Files.join dir name := fun f path hholds =>
    (FilePair.holds_of_ofNames h hholds).resolve_right fun ⟨_, hmem, _⟩ => absurd hmem List.not_mem_nil
  have hcomplete : ∀ f, ∀ name ∈ names, Denotes name f → ∃ path, FilePair.Holds ps f path :=
    fun f name hmem hdenotes => FilePair.exists_holds_of_ofNames h (Or.inl ⟨name, hmem, hdenotes⟩)
  have halone : ∀ f, ∀ name ∈ names, Denotes name f → (∀ name' ∈ names, Denotes name' f → name' = name) →
      ∀ path, FilePair.Holds ps f path ↔ path = Files.join dir name := by
    intro f name hmem hdenotes hown path
    have honly (path : String) (hholds : FilePair.Holds ps f path) : path = Files.join dir name := by
      obtain ⟨name', hmem', hdenotes', rfl⟩ := hlisted f path hholds
      rw [hown name' hmem' hdenotes']
    refine ⟨honly path, ?_⟩
    rintro rfl
    obtain ⟨path, hholds⟩ := hcomplete f name hmem hdenotes
    rwa [← honly path hholds]
  refine ⟨nodup_found h, fun _ _ _ hholds hholds' => hholds.unique (nodup_found h) hholds', hlisted, hcomplete,
    halone, fun category hcategory bucket hbucket role hrole hown path => ?_⟩
  have hpath : Files.join dir (sequencePath "seq" category (some bucket) role.extension) =
      sequencePath (Files.join dir "seq") category (some bucket) role.extension :=
    join_path dir ⟨category, some bucket, role⟩
  constructor
  · intro hholds
    obtain ⟨name, hmem, hdenotes, rfl⟩ := hlisted _ path hholds
    have hname := hown name hmem hdenotes
    exact ⟨hname ▸ hpath, hname ▸ hmem⟩
  · rintro ⟨rfl, hmem⟩
    exact (halone _ _ hmem (denotes_path hcategory hrole hbucket) hown _).mpr hpath.symm

/-- **Finding pairs undoes the naming of sequence files**, as far as no number is unreadable and no other
name denotes the same file. -/
theorem findPairs_undoes_naming {d : Directory} {dir : String} {names : List String}
    (h : d.list dir = .ok names) : ∃ outcome, Discovery d dir names outcome := by
  refine ⟨FilePair.ofNames dir [] names, run_findPairs h, fun t ht => FilePair.ofNames_eq_error ht, ?_,
    fun ps hps => found_of_ofNames hps, ?_⟩
  · rintro name hmem p hp ⟨fault, hfault⟩
    cases hok : FilePair.ofNames dir [] names with
    | error t => exact ⟨t, rfl⟩
    | ok ps =>
      obtain ⟨b, hb⟩ := FilePair.exists_ofNames_iff.mp ⟨ps, hok⟩ name hmem p hp
      cases hb.symm.trans hfault
  · intro d' names' h' hsame
    rw [run_findPairs h', ← FilePair.ofNames_filter, hsame, FilePair.ofNames_filter]

/-- A directory with one empty file. -/
def singleFile (name : String) : Directory := ⟨[(["d"], .directory), (["d", name], .file .empty)]⟩

/-- A file with something in front of its name is found. -/
theorem findPairs_undoes_naming_singleFile : ∃ outcome ps,
    Discovery (singleFile "old-seq-repair1.buggy") "d" ["old-seq-repair1.buggy"] outcome ∧
      outcome = .ok ps ∧ FilePair.Holds ps ⟨.repair, some 1, .buggy⟩ "d/old-seq-repair1.buggy" := by
  have hlist : (singleFile "old-seq-repair1.buggy").list "d" = .ok ["old-seq-repair1.buggy"] := rfl
  have hends : (⟨.repair, ['1'], .buggy⟩ : PairName).Ends "old-seq-repair1.buggy" :=
    PairName.parse?_eq_some_iff.mp (by decide)
  obtain ⟨outcome, h⟩ := findPairs_undoes_naming hlist
  cases outcome with
  | error t =>
    obtain ⟨name, hname, p, fault, hp, hfault, -⟩ := h.fails t rfl
    rw [List.mem_singleton.mp hname, ← PairName.parse?_eq_some_iff] at hp
    cases (PairName.parse?_eq_some_iff.mpr hends).symm.trans hp
    cases hfault
  | ok ps =>
    have hdenotes : Denotes "old-seq-repair1.buggy" ⟨.repair, some 1, .buggy⟩ := ⟨_, hends, 1, rfl, rfl⟩
    have hown : ∀ name' ∈ ["old-seq-repair1.buggy"], Denotes name' ⟨.repair, some 1, .buggy⟩ →
        name' = "old-seq-repair1.buggy" := fun _ hname _ => List.mem_singleton.mp hname
    exact ⟨_, ps, h, rfl, ((h.found ps rfl).alone _ _ (.head _) hdenotes hown _).mpr rfl⟩

/-- A name that is recognised and has a number is found. -/
theorem run_findPairs_of_bucket {name : String} {p : PairName} (hparse : PairName.parse? name = some p)
    (hbucket : p.bucket = .ok bucket) :
    ∃ ps, (ExceptT.run (findPairs "d" : Work (StateM Directory) (List FilePair))).run (singleFile name) =
        (.ok ps, singleFile name) ∧
      FilePair.Holds ps ⟨p.category, some bucket, p.role⟩ (Files.join "d" name) := by
  have hlist : (singleFile name).list "d" = .ok [name] := rfl
  have hrole : p.role ≠ .single := (PairName.parse?_eq_some_iff.mp hparse).role
  refine ⟨(FilePair.put p.category bucket p.role (Files.join "d" name) []).mergeSort FilePair.precedes, ?_,
    FilePair.holds_mergeSort.mpr (FilePair.holds_put_self hrole)⟩
  rw [run_findPairs hlist, FilePair.ofNames, hparse]
  dsimp only
  rw [hbucket]
  rfl

/-- A name that is recognised and has no number makes finding fail. -/
theorem run_findPairs_of_fault {name : String} {p : PairName} {fault : NumberFault}
    (hparse : PairName.parse? name = some p) (hbucket : p.bucket = .error fault) :
    (ExceptT.run (findPairs "d" : Work (StateM Directory) (List FilePair))).run (singleFile name) =
      (.error (.bucketNumber name fault), singleFile name) := by
  have hlist : (singleFile name).list "d" = .ok [name] := rfl
  rw [run_findPairs hlist, FilePair.ofNames, hparse]
  dsimp only
  rw [hbucket]

/-- **What keeps it from being an inverse**: a number that is too large makes it fail, and a file with
something in front of its name or with zeros before its number is found although no sink names it so. -/
theorem findPairs_is_no_inverse :
    (ExceptT.run (findPairs "d" : Work (StateM Directory) (List FilePair))).run
        (singleFile "seq-repair18446744073709551616.buggy") =
      (.error (.bucketNumber "seq-repair18446744073709551616.buggy" .tooLarge),
        singleFile "seq-repair18446744073709551616.buggy") ∧
    (∃ ps, (ExceptT.run (findPairs "d" : Work (StateM Directory) (List FilePair))).run
          (singleFile "old-seq-repair1.buggy") = (.ok ps, singleFile "old-seq-repair1.buggy") ∧
        FilePair.Holds ps ⟨.repair, some 1, .buggy⟩ "d/old-seq-repair1.buggy") ∧
    "d/old-seq-repair1.buggy" ≠ sequencePath "d/seq" .repair (some 1) "buggy" ∧
    (∃ ps, (ExceptT.run (findPairs "d" : Work (StateM Directory) (List FilePair))).run
          (singleFile "seq-repair00.buggy") = (.ok ps, singleFile "seq-repair00.buggy") ∧
        FilePair.Holds ps ⟨.repair, some 0, .buggy⟩ "d/seq-repair00.buggy") ∧
    "d/seq-repair00.buggy" ≠ sequencePath "d/seq" .repair (some 0) "buggy" := by
  have hhuge : PairName.parse? "seq-repair18446744073709551616.buggy" =
      some ⟨.repair, "18446744073709551616".toList, .buggy⟩ := by decide
  have hold : PairName.parse? "old-seq-repair1.buggy" = some ⟨.repair, ['1'], .buggy⟩ := by decide
  have hzeros : PairName.parse? "seq-repair00.buggy" = some ⟨.repair, ['0', '0'], .buggy⟩ := by decide
  refine ⟨run_findPairs_of_fault hhuge (by decide), ?_, by decide, ?_, by decide⟩
  · exact run_findPairs_of_bucket hold rfl
  · exact run_findPairs_of_bucket hzeros rfl

end Corpus

end RepairCorpus
