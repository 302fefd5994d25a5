import Mathlib.Data.List.Basic
import RepairCorpus.Corpus.SequenceFile
import RepairCorpus.Proofs.Files.FilePaths

/-!
# Paths of sequence files

A sequence file belongs to a category, a bucket and a role, and its path is made of the three.  The
category and the role are words without digits, and the number of the bucket stands between them, so
the three can be read off the path again: different files have different names.

* `filter_numbered`: a number between two words.
* `SequenceKey`: what a sequence file belongs to.
* `SequenceKey.filePath`: its path leads to a file in the directory of the run.
* `SequenceKey.tail_inj`, `SequenceKey.path_inj`: **files that belong to different things are
  different**.
-/

namespace RepairCorpus

open Files (FilePath)

/-- **A number between two words without digits** can be read off the text they make, and so can the two
words. -/
theorem filter_numbered {before digits after : List Char} (hbefore : ∀ c ∈ before, c.isDigit = false)
    (hdigits : ∀ c ∈ digits, c.isDigit = true) (hafter : ∀ c ∈ after, c.isDigit = false) :
    (before ++ digits ++ after).filter Char.isDigit = digits ∧
      (before ++ digits ++ after).filter (fun c => !c.isDigit) = before ++ after := by
  have hword {word : List Char} (h : ∀ c ∈ word, c.isDigit = false) :
      word.filter Char.isDigit = [] ∧ word.filter (fun c => !c.isDigit) = word := by
    refine ⟨List.filter_eq_nil_iff.mpr fun c hc => ?_, List.filter_eq_self.mpr fun c hc => ?_⟩
    · rw [h c hc]
      exact Bool.false_ne_true
    · rw [h c hc]
      rfl
  have hnumber : digits.filter Char.isDigit = digits := List.filter_eq_self.mpr hdigits
  have hnone : digits.filter (fun c => !c.isDigit) = [] := by
    refine List.filter_eq_nil_iff.mpr fun c hc => ?_
    rw [hdigits c hc]
    exact Bool.false_ne_true
  constructor
  · rw [List.filter_append, List.filter_append, (hword hbefore).1, (hword hafter).1, hnumber,
      List.nil_append, List.append_nil]
  · rw [List.filter_append, List.filter_append, (hword hbefore).2, (hword hafter).2, hnone,
      List.append_nil]

/-- What a sequence file belongs to. -/
structure SequenceKey where
  category : Category
  bucket : Option Nat
  role : Role
  deriving DecidableEq

namespace SequenceKey

variable {f g : SequenceKey} {start : String}

/-- The number of a bucket in a name. -/
def number : Option Nat → String
  | some n => Text.ofNat n
  | none => ""

theorem number_inj {b c : Option Nat} (h : number b = number c) : b = c := by
  have hne (n : Nat) : Text.ofNat n ≠ "" := by
    intro hempty
    have hdigits := congrArg String.toList hempty
    rw [Text.ofNat, String.toList_ofList] at hdigits
    exact Nat.toDigits_ne_nil hdigits
  cases b with
  | none =>
    cases c with
    | none => rfl
    | some n => exact absurd h.symm (hne n)
  | some m =>
    cases c with
    | none => exact absurd h (hne m)
    | some n => exact congrArg some (Text.ofNat_inj.mp h)

theorem isDigit_of_mem_number {b : Option Nat} {c : Char} (h : c ∈ (number b).toList) :
    c.isDigit = true := by
  cases b with
  | none => exact absurd h List.not_mem_nil
  | some n => exact Text.isDigit_of_mem_ofNat h

/-- What the name of a file ends with. -/
def tail (f : SequenceKey) : String :=
  "-" ++ f.category.name ++ number f.bucket ++ "." ++ f.role.extension

/-- The path of a file. -/
def path (start : String) (f : SequenceKey) : String :=
  sequencePath start f.category f.bucket f.role.extension

theorem path_eq (start : String) (f : SequenceKey) : f.path start = start ++ f.tail := by
  obtain ⟨category, bucket, role⟩ := f
  have happend (number : String) : start ++ "-" ++ category.name ++ number ++ "." ++ role.extension =
      start ++ ("-" ++ category.name ++ number ++ "." ++ role.extension) := by
    simp only [String.append_assoc]
  cases bucket with
  | none => exact happend ""
  | some n => exact happend (Text.ofNat n)

theorem toList_tail (f : SequenceKey) : f.tail.toList =
    ("-" ++ f.category.name).toList ++ (number f.bucket).toList ++ ("." ++ f.role.extension).toList := by
  rw [tail, String.append_assoc, String.toList_append, String.toList_append]

/-- The words around the number have no digits and no slashes. -/
theorem plain_of_mem_words {c : Char}
    (h : c ∈ ("-" ++ f.category.name).toList ∨ c ∈ ("." ++ f.role.extension).toList) :
    c.isDigit = false ∧ c ≠ '/' := by
  have hcategory : ("-" ++ f.category.name).toList.all (fun c => !c.isDigit && c != '/') = true := by
    cases f.category <;> decide
  have hrole : ("." ++ f.role.extension).toList.all (fun c => !c.isDigit && c != '/') = true := by
    cases f.role <;> decide
  have hplain : (!c.isDigit && c != '/') = true := by
    rcases h with h | h
    · exact List.all_eq_true.mp hcategory c h
    · exact List.all_eq_true.mp hrole c h
  simpa using hplain

/-- The digits of a name are those of the number of the bucket, and the other characters are those of
the two words around it. -/
theorem filter_tail (f : SequenceKey) :
    f.tail.toList.filter Char.isDigit = (number f.bucket).toList ∧
      (f.tail.toList.filter fun c => !c.isDigit) =
        ("-" ++ f.category.name).toList ++ ("." ++ f.role.extension).toList := by
  rw [toList_tail]
  exact filter_numbered (fun c hc => (plain_of_mem_words (Or.inl hc)).1)
    (fun c hc => isDigit_of_mem_number hc) fun c hc => (plain_of_mem_words (Or.inr hc)).1

/-- The two words tell the category and the role. -/
theorem words_inj {category category' : Category} {role role' : Role}
    (h : ("-" ++ category.name).toList ++ ("." ++ role.extension).toList =
      ("-" ++ category'.name).toList ++ ("." ++ role'.extension).toList) :
    category = category' ∧ role = role' := by
  have hdifferent : ∀ c ∈ Category.all, ∀ r ∈ [Role.buggy, .correct, .single], ∀ c' ∈ Category.all,
      ∀ r' ∈ [Role.buggy, .correct, .single],
        ("-" ++ c.name).toList ++ ("." ++ r.extension).toList =
          ("-" ++ c'.name).toList ++ ("." ++ r'.extension).toList → c = c' ∧ r = r' := by decide
  have hcategory (c : Category) : c ∈ Category.all := by cases c <;> decide
  have hrole (r : Role) : r ∈ [Role.buggy, .correct, .single] := by cases r <;> decide
  exact hdifferent _ (hcategory _) _ (hrole _) _ (hcategory _) _ (hrole _) h

/-- **Names of files that belong to different things end differently.** -/
theorem tail_inj (h : f.tail = g.tail) : f = g := by
  obtain ⟨hdigits, hletters⟩ := filter_tail f
  obtain ⟨hdigits', hletters'⟩ := filter_tail g
  rw [h] at hdigits hletters
  have hbucket : f.bucket = g.bucket :=
    number_inj (String.toList_injective (hdigits.symm.trans hdigits'))
  obtain ⟨hcategory, hrole⟩ := words_inj (hletters.symm.trans hletters')
  cases f
  cases g
  simp_all only

theorem path_inj (h : f.path start = g.path start) : f = g := by
  rw [path_eq, path_eq] at h
  refine tail_inj (String.toList_injective ?_)
  have hlist := congrArg String.toList h
  rw [String.toList_append, String.toList_append] at hlist
  exact List.append_cancel_left hlist

/-- **The path of a sequence file** leads to a file in the directory of the run. -/
theorem filePath (start : String) (f : SequenceKey) :
    FilePath (f.path start) (Files.namesAbove start) (Files.nameFront start ++ f.tail) := by
  rw [path_eq]
  refine FilePath.append start ?_ ?_
  · intro h
    rw [toList_tail] at h
    rcases List.mem_append.mp h with h | h
    · rcases List.mem_append.mp h with h | h
      · exact (plain_of_mem_words (Or.inl h)).2 rfl
      · exact absurd (isDigit_of_mem_number h) (by decide)
    · exact (plain_of_mem_words (Or.inr h)).2 rfl
  · have hrole : 3 < ("." ++ f.role.extension).toList.length := by cases f.role <;> decide
    rw [toList_tail, List.length_append]
    omega

end SequenceKey

end RepairCorpus
