import RepairCorpus.Files.Directory
import RepairCorpus.Proofs.Files.FilePaths
import RepairCorpus.Proofs.Results

/-!
# Rewriting files

Making and writing files changes what is at their places and nothing else; in particular it makes and
removes no directory, so every other path leads where it led before.

* `Directory.locate_eq_ok_iff`: where the path of a file leads.
* `Directory.Rewritten`: the same directories, and the same files but at some places.
* `Rewritten.status_iff`, `Rewritten.read_iff`: **what is at other places is found and read as before**.
* `Directory.create_eq`, `Directory.overwrite_eq`: making and writing a file.
* `Directory.walk_of_makeDirectories`: a directory that has been made can be walked to.
* `Directory.extended_makeDirectories`: nothing that was there before has changed then.
-/

namespace RepairCorpus.Files.Directory

variable {d d' d'' : Directory} {path name : String} {above : List String} {l k : Location}
  {e : Entry} {s : String}

/-! ## Walking -/

/-- The place that a name leads to. -/
def follow (l : Location) (name : String) : Location := if name = up then l.dropLast else l ++ [name]

theorem walk_cons_eq_ok_iff {rest : List String} :
    d.walk l (name :: rest) = .ok k ↔
      d.at? l = some .directory ∧ d.walk (follow l name) rest = .ok k := by
  rw [walk]
  split
  next h => exact iff_of_false nofun fun hw => by rw [h] at hw; cases hw.1
  next h => exact iff_of_false nofun fun hw => by rw [h] at hw; cases hw.1
  next h => exact (and_iff_right h).symm

theorem walk_append_eq_ok_iff {ns ms : List String} :
    d.walk l (ns ++ ms) = .ok k ↔ ∃ j, d.walk l ns = .ok j ∧ d.walk j ms = .ok k := by
  induction ns generalizing l with
  | nil =>
    rw [List.nil_append, walk]
    simp only [Except.ok.injEq, exists_eq_left']
  | cons n ns ih =>
    rw [List.cons_append, walk_cons_eq_ok_iff, ih]
    simp only [walk_cons_eq_ok_iff, and_assoc, exists_and_left]

/-- **Where the path of a file leads**: to its name in the directory that the names before lead to. -/
theorem locate_eq_ok_iff (h : FilePath path above name) :
    d.locate path = .ok l ↔
      ∃ k, d.walk [] above = .ok k ∧ d.at? k = some .directory ∧ k ++ [name] = l := by
  have hwalk : d.locate path = .ok l ↔ d.walk [] (above ++ [name]) = .ok l := by
    rw [locate, h.nonempty, h.names, h.endsIdle]
    refine Except.bind_eq_ok_iff.trans ⟨?_, fun hw => ⟨l, hw, ?_⟩⟩
    · rintro ⟨k, hk, hl⟩
      split at hl
      next =>
        cases hl
        exact hk
      next =>
        cases hl
        exact hk
    · split <;> rfl
  rw [hwalk, walk_append_eq_ok_iff]
  refine exists_congr fun k => and_congr_right fun _ => ?_
  rw [walk_cons_eq_ok_iff, walk, follow, if_neg h.ne_up, Except.ok.injEq]

/-! ## Finding and reading -/

theorem status_eq_ok_iff : d.status path = .ok e ↔ ∃ l, d.locate path = .ok l ∧ d.at? l = some e := by
  rw [status]
  refine Except.bind_eq_ok_iff.trans (exists_congr fun l => and_congr_right fun _ => ?_)
  split
  next x h =>
    rw [h, Option.some.injEq]
    exact Except.ok.injEq x e ▸ Iff.rfl
  next h =>
    rw [h]
    exact iff_of_false nofun nofun

theorem has_iff : d.has path = true ↔ ∃ e, d.status path = .ok e := by
  rw [has]
  cases d.status path with
  | error f => exact iff_of_false nofun nofun
  | ok e => exact iff_of_true rfl ⟨e, rfl⟩

theorem read_eq_ok_iff :
    d.read path = .ok s ↔ ∃ content, d.status path = .ok (.file content) ∧ content.text? = some s := by
  rw [read]
  refine Except.bind_eq_ok_iff.trans ⟨?_, ?_⟩
  · rintro ⟨x, hx, hs⟩
    cases x with
    | directory => cases hs
    | file content =>
      refine ⟨content, hx, ?_⟩
      dsimp only at hs
      split at hs
      next t ht =>
        cases hs
        exact ht
      next => cases hs
  · rintro ⟨content, hx, hs⟩
    refine ⟨.file content, hx, ?_⟩
    dsimp only
    rw [hs]
    rfl

/-! ## Rewriting -/

/-- `Rewritten P d d'` holds if `d'` has the directories of `d`, and the files of `d` but at the places of
which `P` holds. -/
structure Rewritten (P : Location → Prop) (d d' : Directory) : Prop where
  directories : ∀ l, d'.at? l = some .directory ↔ d.at? l = some .directory
  others : ∀ l, ¬ P l → d'.at? l = d.at? l

namespace Rewritten

variable {P Q : Location → Prop}

theorem refl (P : Location → Prop) (d : Directory) : Rewritten P d d :=
  ⟨fun _ => Iff.rfl, fun _ _ => rfl⟩

theorem trans (h : Rewritten P d d') (h' : Rewritten P d' d'') : Rewritten P d d'' where
  directories l := (h'.directories l).trans (h.directories l)
  others l hl := (h'.others l hl).trans (h.others l hl)

theorem mono (h : Rewritten P d d') (hPQ : ∀ l, P l → Q l) : Rewritten Q d d' where
  directories := h.directories
  others l hl := h.others l fun hP => hl (hPQ l hP)

theorem walk_iff (h : Rewritten P d d') {ns : List String} :
    d'.walk l ns = .ok k ↔ d.walk l ns = .ok k := by
  induction ns generalizing l with
  | nil => rw [walk, walk]
  | cons n ns ih => rw [walk_cons_eq_ok_iff, walk_cons_eq_ok_iff, h.directories, ih]

theorem locate_iff (h : Rewritten P d d') (hpath : FilePath path above name) :
    d'.locate path = .ok l ↔ d.locate path = .ok l := by
  rw [locate_eq_ok_iff hpath, locate_eq_ok_iff hpath]
  refine exists_congr fun k => ?_
  rw [h.walk_iff, h.directories]

/-- Directories are found as before. -/
theorem status_directory_iff (h : Rewritten P d d') (hpath : FilePath path above name) :
    d'.status path = .ok .directory ↔ d.status path = .ok .directory := by
  rw [status_eq_ok_iff, status_eq_ok_iff]
  refine exists_congr fun l => ?_
  rw [h.locate_iff hpath, h.directories]

/-- What is at other places is found as before. -/
theorem status_iff (h : Rewritten P d d') (hpath : FilePath path above name)
    (hother : ∀ k, ¬ P (k ++ [name])) : d'.status path = .ok e ↔ d.status path = .ok e := by
  rw [status_eq_ok_iff, status_eq_ok_iff]
  refine exists_congr fun l => ?_
  rw [h.locate_iff hpath]
  refine and_congr_right fun hl => ?_
  obtain ⟨k, -, -, rfl⟩ := (locate_eq_ok_iff hpath).mp hl
  rw [h.others _ (hother k)]

theorem has_eq (h : Rewritten P d d') (hpath : FilePath path above name)
    (hother : ∀ k, ¬ P (k ++ [name])) : d'.has path = d.has path := by
  rw [Bool.eq_iff_iff, has_iff, has_iff]
  exact exists_congr fun e => h.status_iff hpath hother

/-- **Files at other places are read as before.** -/
theorem read_iff (h : Rewritten P d d') (hpath : FilePath path above name)
    (hother : ∀ k, ¬ P (k ++ [name])) : d'.read path = .ok s ↔ d.read path = .ok s := by
  rw [read_eq_ok_iff, read_eq_ok_iff]
  refine exists_congr fun content => ?_
  rw [h.status_iff hpath hother]

end Rewritten

theorem rewritten_put {content : Content} (hroot : l ≠ []) (h : d.at? l ≠ some .directory) :
    Rewritten (fun k => k = l) d (d.put l (.file content)) where
  directories k := by
    rw [at?_put d l k _ hroot]
    split
    next heq =>
      subst heq
      exact iff_of_false nofun h
    next => exact Iff.rfl
  others k hk := by rw [at?_put d l k _ hroot, if_neg hk]

/-! ## Making and writing files -/

/-- Making a file where there is no directory. -/
theorem create_eq (hpath : FilePath path above name) (hl : d.locate path = .ok l)
    (h : d.at? l ≠ some .directory) : d.create path = .ok (d.put l (.file .empty)) := by
  rw [create]
  refine Except.bind_eq_ok_iff.mpr ⟨l, hl, ?_⟩
  split
  next heq => exact absurd heq h
  next => rfl
  next =>
    rw [hpath.endsIdle]
    rfl

/-- Writing to a file that has just been made. -/
theorem overwrite_eq (hl : d.locate path = .ok l) (h : d.at? l = some (.file .empty)) :
    d.overwrite path s = .ok (d.put l (.file (.text s))) := by
  rw [overwrite]
  refine Except.bind_eq_ok_iff.mpr ⟨l, hl, ?_⟩
  rw [h]
  show Except.ok (d.put l (.file (Content.empty.overwrite s))) = _
  rw [Content.empty_overwrite]

/-! ## Making directories -/

theorem makeAlong_cons_of_none {rest : List String} (h : d.at? (follow l name) = none) :
    d.makeAlong l (name :: rest) =
      (d.put (follow l name) .directory).makeAlong (follow l name) rest := by
  rw [makeAlong]
  rw [follow] at h ⊢
  rw [h]

theorem makeAlong_cons_of_directory {rest : List String}
    (h : d.at? (follow l name) = some .directory) :
    d.makeAlong l (name :: rest) = d.makeAlong (follow l name) rest := by
  rw [makeAlong]
  rw [follow] at h ⊢
  rw [h]

theorem makeAlong_cons_ne_ok {rest : List String} {content : Content}
    (h : d.at? (follow l name) = some (.file content)) : d.makeAlong l (name :: rest) ≠ .ok d' := by
  rw [makeAlong]
  rw [follow] at h
  rw [h]
  nofun

/-- `Extended d d'` holds if `d'` has all that `d` has, and otherwise only directories. -/
structure Extended (d d' : Directory) : Prop where
  kept : ∀ l e, d.at? l = some e → d'.at? l = some e
  made : ∀ l, d.at? l = none → d'.at? l = none ∨ d'.at? l = some .directory

namespace Extended

theorem refl (d : Directory) : Extended d d := ⟨fun _ _ h => h, fun _ h => Or.inl h⟩

theorem trans (h : Extended d d') (h' : Extended d' d'') : Extended d d'' where
  kept l e hl := h'.kept l e (h.kept l e hl)
  made l hl := by
    rcases h.made l hl with hnone | hdir
    · exact h'.made l hnone
    · exact Or.inr (h'.kept l _ hdir)

theorem walk (h : Extended d d') {ns : List String} (hwalk : d.walk l ns = .ok k) :
    d'.walk l ns = .ok k := by
  induction ns generalizing l with
  | nil => exact hwalk
  | cons n ns ih =>
    obtain ⟨hl, hrest⟩ := walk_cons_eq_ok_iff.mp hwalk
    exact walk_cons_eq_ok_iff.mpr ⟨h.kept l _ hl, ih hrest⟩

/-- The path of a file leads where it led before. -/
theorem locate (h : Extended d d') (hpath : FilePath path above name) (hl : d.locate path = .ok l) :
    d'.locate path = .ok l := by
  obtain ⟨k, hwalk, hk, hlast⟩ := (locate_eq_ok_iff hpath).mp hl
  exact (locate_eq_ok_iff hpath).mpr ⟨k, h.walk hwalk, h.kept k _ hk, hlast⟩

/-- A file is read as before. -/
theorem read (h : Extended d d') (hpath : FilePath path above name) (hread : d.read path = .ok s) :
    d'.read path = .ok s := by
  obtain ⟨content, hstatus, htext⟩ := read_eq_ok_iff.mp hread
  obtain ⟨l, hl, hat⟩ := status_eq_ok_iff.mp hstatus
  have hstatus' := status_eq_ok_iff.mpr ⟨l, h.locate hpath hl, h.kept l _ hat⟩
  exact read_eq_ok_iff.mpr ⟨content, hstatus', htext⟩

/-- Where nothing was there is nothing or a directory. -/
theorem has_eq_false (h : Extended d d') (hpath : FilePath path above name) (hl : d.locate path = .ok l)
    (hnone : d.at? l = none) (hdir : d'.status path ≠ .ok .directory) : d'.has path = false := by
  refine Bool.eq_false_iff.mpr fun hhas => ?_
  obtain ⟨e, he⟩ := has_iff.mp hhas
  obtain ⟨l', hl', hat⟩ := status_eq_ok_iff.mp he
  rw [h.locate hpath hl] at hl'
  cases hl'
  rcases h.made l hnone with hmade | hmade
  · rw [hmade] at hat
    cases hat
  · rw [hmade] at hat
    cases hat
    exact hdir he

end Extended

theorem extended_put_directory (h : d.at? l = none) : Extended d (d.put l .directory) := by
  have hroot : l ≠ [] := by
    rintro rfl
    rw [at?_root] at h
    cases h
  constructor
  · intro j e hj
    rw [at?_put d l j _ hroot, if_neg]
    · exact hj
    · rintro rfl
      rw [h] at hj
      cases hj
  · intro j hj
    rw [at?_put d l j _ hroot]
    split
    next => exact Or.inr rfl
    next => exact Or.inl hj

theorem extended_makeAlong {ns : List String} (h : d.makeAlong l ns = .ok d') : Extended d d' := by
  induction ns generalizing d l with
  | nil =>
    cases h
    exact Extended.refl _
  | cons n ns ih =>
    cases hnext : d.at? (follow l n) with
    | none =>
      rw [makeAlong_cons_of_none hnext] at h
      exact (extended_put_directory hnext).trans (ih h)
    | some e =>
      cases e with
      | directory =>
        rw [makeAlong_cons_of_directory hnext] at h
        exact ih h
      | file content => exact absurd h (makeAlong_cons_ne_ok hnext)

/-- **Making directories changes nothing that is there.** -/
theorem extended_makeDirectories (h : d.makeDirectories path = .ok d') : Extended d d' :=
  extended_makeAlong h

theorem walk_of_makeAlong {ns : List String} (hl : d.at? l = some .directory)
    (h : d.makeAlong l ns = .ok d') : ∃ k, d'.walk l ns = .ok k ∧ d'.at? k = some .directory := by
  induction ns generalizing d l with
  | nil =>
    cases h
    exact ⟨l, rfl, hl⟩
  | cons n ns ih =>
    have hl' := (extended_makeAlong h).kept l _ hl
    have hrest : ∃ k, d'.walk (follow l n) ns = .ok k ∧ d'.at? k = some .directory := by
      cases hnext : d.at? (follow l n) with
      | none =>
        have hroot : follow l n ≠ [] := by
          intro hroot
          rw [hroot, at?_root] at hnext
          cases hnext
        rw [makeAlong_cons_of_none hnext] at h
        refine ih ?_ h
        rw [at?_put d _ _ _ hroot, if_pos rfl]
      | some e =>
        cases e with
        | directory =>
          rw [makeAlong_cons_of_directory hnext] at h
          exact ih hnext h
        | file content => exact absurd h (makeAlong_cons_ne_ok hnext)
    obtain ⟨k, hk, hdir⟩ := hrest
    exact ⟨k, walk_cons_eq_ok_iff.mpr ⟨hl', hk⟩, hdir⟩

/-- **A directory that has been made can be walked to.** -/
theorem walk_of_makeDirectories (h : d.makeDirectories path = .ok d') :
    ∃ k, d'.walk [] (names path) = .ok k ∧ d'.at? k = some .directory :=
  walk_of_makeAlong (at?_root d) h

end RepairCorpus.Files.Directory
