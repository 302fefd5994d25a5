import RepairCorpus.Corpus.Folds
import RepairCorpus.Proofs.Corpus.SequencePaths
import RepairCorpus.Proofs.Files.Runs

/-!
# Files of folds

A fold is written to four files.  The number of the fold stands between two words without digits, so
it can be read off the name of a file, and files of different folds or of different parts never have
the same place.  Nor is one of them the file of some sequences, whose name ends otherwise.

* `partFile_inj`: the names of these files are different.
* `partFile_ne_sequence`: no file of sequences has such a name.
* `PartAt`: what the two files of a part hold.
* `exists_runs_createPart`, `exists_runs_writePart`: **the files of a part are made and written, and
  nothing else changes**.
-/

namespace RepairCorpus

open Files (Directory Location FilePath)
open Files.Directory (Rewritten)
open Work (Runs PlaceAt)

/-! ## Names -/

/-- The names of the parts of a fold. -/
def partNames : List String := ["train", "test"]

/-- How the names of the two files of a part end. -/
def partExtensions : List String := [".input", ".expected"]

/-- The name of a file of a part of a fold. -/
def partFile (part : String) (fold : Nat) (extension : String) : String :=
  part ++ Text.ofNat fold ++ extension

variable {part part' extension extension' : String} {fold fold' : Nat}

theorem notDigit_of_mem_part (hpart : part ∈ partNames) {c : Char} (hc : c ∈ part.toList) :
    c.isDigit = false := by
  have hall : ∀ p ∈ partNames, p.toList.all (fun c => !c.isDigit) = true := by decide
  exact (Bool.not_eq_true' _).mp (List.all_eq_true.mp (hall part hpart) c hc)

theorem notDigit_of_mem_extension (hextension : extension ∈ partExtensions) {c : Char}
    (hc : c ∈ extension.toList) : c.isDigit = false := by
  have hall : ∀ e ∈ partExtensions, e.toList.all (fun c => !c.isDigit) = true := by decide
  exact (Bool.not_eq_true' _).mp (List.all_eq_true.mp (hall extension hextension) c hc)

theorem toList_partFile : (partFile part fold extension).toList =
    part.toList ++ (Text.ofNat fold).toList ++ extension.toList := by
  rw [partFile, String.toList_append, String.toList_append]

/-- The digits of a name are those of the number of the fold, and the other characters are those of the
two words around it. -/
theorem filter_partFile (fold : Nat) (hpart : part ∈ partNames)
    (hextension : extension ∈ partExtensions) :
    (partFile part fold extension).toList.filter Char.isDigit = (Text.ofNat fold).toList ∧
      ((partFile part fold extension).toList.filter fun c => !c.isDigit) =
        part.toList ++ extension.toList := by
  rw [toList_partFile]
  exact filter_numbered (fun c hc => notDigit_of_mem_part hpart hc)
    (fun c hc => Text.isDigit_of_mem_ofNat hc) fun c hc => notDigit_of_mem_extension hextension hc

/-- The names of the files of parts are different. -/
theorem partFile_inj (hpart : part ∈ partNames) (hextension : extension ∈ partExtensions)
    (hpart' : part' ∈ partNames) (hextension' : extension' ∈ partExtensions)
    (h : partFile part fold extension = partFile part' fold' extension') :
    part = part' ∧ fold = fold' ∧ extension = extension' := by
  obtain ⟨hdigits, hletters⟩ := filter_partFile fold hpart hextension
  obtain ⟨hdigits', hletters'⟩ := filter_partFile fold' hpart' hextension'
  rw [h] at hdigits hletters
  have hnumber : Text.ofNat fold = Text.ofNat fold' :=
    String.toList_injective (hdigits.symm.trans hdigits')
  have hdifferent : ∀ p ∈ partNames, ∀ e ∈ partExtensions, ∀ p' ∈ partNames, ∀ e' ∈ partExtensions,
      p.toList ++ e.toList = p'.toList ++ e'.toList → p = p' ∧ e = e' := by decide
  obtain ⟨hp, he⟩ := hdifferent part hpart extension hextension part' hpart' extension' hextension'
    (hletters.symm.trans hletters')
  exact ⟨hp, Text.ofNat_inj.mp hnumber, he⟩

/-- The name of a file of a part has its place in any directory. -/
theorem filePath_partFile (out : String) (fold : Nat) (hpart : part ∈ partNames)
    (hextension : extension ∈ partExtensions) :
    FilePath (Files.join out (partFile part fold extension)) (Files.names out)
      (partFile part fold extension) := by
  have hslash : '/' ∉ (partFile part fold extension).toList := by
    have hfirst : ∀ p ∈ partNames, '/' ∉ p.toList := by decide
    have hlast : ∀ e ∈ partExtensions, '/' ∉ e.toList := by decide
    intro h
    rw [toList_partFile] at h
    rcases List.mem_append.mp h with h | h
    · rcases List.mem_append.mp h with h | h
      · exact hfirst part hpart h
      · exact absurd (Text.isDigit_of_mem_ofNat h) (by decide)
    · exact hlast extension hextension h
  have hlong : 2 < (partFile part fold extension).toList.length := by
    have hfirst : ∀ p ∈ partNames, 2 < p.toList.length := by decide
    have hpart := hfirst part hpart
    rw [toList_partFile, List.length_append, List.length_append]
    omega
  refine FilePath.join out hslash ?_ ?_
  · rw [Files.isIdle, Bool.or_eq_false_iff]
    refine ⟨decide_eq_false fun h => ?_, decide_eq_false fun h => ?_⟩
    · rw [h] at hlong
      exact absurd hlong (by decide)
    · rw [h] at hlong
      exact absurd hlong (by decide)
  · intro h
    rw [h] at hlong
    exact absurd hlong (by decide)

/-- No file of sequences has the name of a file of a part. -/
theorem partFile_ne_sequence (front : String) (category : Category) (bucket : Option Nat)
    (hextension : extension ∈ partExtensions) :
    front ++ SequenceKey.tail ⟨category, bucket, .single⟩ ≠ partFile part fold extension := by
  have hlast : ∀ e ∈ partExtensions, e.toList ≠ [] ∧ e.toList.getLast? ≠ some 'q' := by decide
  obtain ⟨hne, hend⟩ := hlast extension hextension
  intro h
  have hends := congrArg (fun name => name.toList.getLast?) h
  have hsequence : (front ++ SequenceKey.tail ⟨category, bucket, .single⟩).toList.getLast? = some 'q' := by
    have hrole : ("." ++ Role.single.extension).toList = ".seq".toList := by decide
    rw [String.toList_append, SequenceKey.toList_tail, hrole, ← List.append_assoc,
      List.getLast?_append_of_ne_nil _ (by decide)]
    decide
  have hpart : (partFile part fold extension).toList.getLast? = extension.toList.getLast? := by
    rw [toList_partFile]
    exact List.getLast?_append_of_ne_nil _ hne
  refine hend ?_
  rw [← hpart, ← hsequence]
  exact hends.symm

/-! ## Files of parts -/

/-- The places of the two files of a part in a directory. -/
def IsPart (k : Location) (part : String) (fold : Nat) (l : Location) : Prop :=
  ∃ extension ∈ partExtensions, l = k ++ [partFile part fold extension]

/-- The places of the files of a fold in a directory. -/
def IsFold (k : Location) (fold : Nat) (l : Location) : Prop :=
  ∃ part ∈ partNames, IsPart k part fold l

variable {d d' : Directory} {out input expected : String} {k l : Location} {P : Location → Prop}

theorem isPart_inj (hpart : part ∈ partNames) (hpart' : part' ∈ partNames)
    (h : IsPart k part fold l) (h' : IsPart k part' fold' l) : part = part' ∧ fold = fold' := by
  obtain ⟨extension, hextension, rfl⟩ := h
  obtain ⟨extension', hextension', heq⟩ := h'
  have hname := (List.cons.inj (List.append_cancel_left heq)).1
  obtain ⟨hpart, hfold, -⟩ := partFile_inj hpart hextension hpart' hextension' hname
  exact ⟨hpart, hfold⟩

theorem isFold_inj (h : IsFold k fold l) (h' : IsFold k fold' l) : fold = fold' := by
  obtain ⟨part, hpart, h⟩ := h
  obtain ⟨part', hpart', h'⟩ := h'
  exact (isPart_inj hpart hpart' h h').2

theorem isFold_train (h : IsPart k "train" fold l) : IsFold k fold l := ⟨_, .head _, h⟩

theorem isFold_test (h : IsPart k "test" fold l) : IsFold k fold l := ⟨_, .tail _ (.head _), h⟩

theorem not_isPart_test (h : IsPart k "train" fold l) : ¬ IsPart k "test" fold l := fun h' =>
  absurd (isPart_inj (.head _) (.tail _ (.head _)) h h').1 (by decide)

theorem not_isPart_train (h : IsPart k "test" fold l) : ¬ IsPart k "train" fold l := fun h' =>
  not_isPart_test h' h

/-- `PartAt d k part fold input expected` holds if the two files of a part hold these texts. -/
structure PartAt (d : Directory) (k : Location) (part : String) (fold : Nat)
    (input expected : String) : Prop where
  input : d.at? (k ++ [partFile part fold ".input"]) = some (.file (.text input))
  expected : d.at? (k ++ [partFile part fold ".expected"]) = some (.file (.text expected))

theorem PartAt.rewritten (h : PartAt d k part fold input expected) (hd : Rewritten P d d')
    (hother : ∀ l, IsPart k part fold l → ¬ P l) : PartAt d' k part fold input expected where
  input := (hd.others _ (hother _ ⟨_, .head _, rfl⟩)).trans h.input
  expected := (hd.others _ (hother _ ⟨_, .tail _ (.head _), rfl⟩)).trans h.expected

/-- The two files of a part have different places. -/
theorem place_expected_ne_place_input (hpart : part ∈ partNames) :
    k ++ [partFile part fold ".expected"] ≠ k ++ [partFile part fold ".input"] := by
  intro heq
  have hname := (List.cons.inj (List.append_cancel_left heq)).1
  have hsame := partFile_inj hpart (.tail _ (.head _)) hpart (.head _) hname
  exact absurd hsame.2.2 (by decide)

/-- Two changes, one of each file of a part. -/
theorem PartAt.of_two {d₁ d₂ : Directory} (hpart : part ∈ partNames)
    (h₁ : Rewritten (fun l => l = k ++ [partFile part fold ".input"]) d d₁)
    (hinput : d₁.at? (k ++ [partFile part fold ".input"]) = some (.file (.text input)))
    (h₂ : Rewritten (fun l => l = k ++ [partFile part fold ".expected"]) d₁ d₂)
    (hexpected : d₂.at? (k ++ [partFile part fold ".expected"]) = some (.file (.text expected))) :
    Rewritten (IsPart k part fold) d d₂ ∧ PartAt d₂ k part fold input expected := by
  have hfirst : Rewritten (IsPart k part fold) d d₁ := h₁.mono fun _ h => ⟨_, .head _, h⟩
  have hsecond : Rewritten (IsPart k part fold) d₁ d₂ := h₂.mono fun _ h => ⟨_, .tail _ (.head _), h⟩
  refine ⟨hfirst.trans hsecond, ?_, hexpected⟩
  rw [h₂.others _ (place_expected_ne_place_input hpart).symm, hinput]

/-- The files of a part are made, and nothing else changes. -/
theorem exists_runs_createPart (hout : PlaceAt d out k) (hpart : part ∈ partNames)
    (hfree : ∀ l, IsPart k part fold l → d.at? l ≠ some .directory) :
    ∃ d', Runs (Corpus.createPart (PartPaths.of out part fold)) d () d' ∧
      Rewritten (IsPart k part fold) d d' ∧ PartAt d' k part fold "" "" := by
  obtain ⟨d₁, hrun₁, h₁, hinput⟩ := hout.exists_runs_create (a := .createFile)
    (filePath_partFile out fold hpart (.head _)) (hfree _ ⟨_, .head _, rfl⟩)
  have hfree₁ : d₁.at? (k ++ [partFile part fold ".expected"]) ≠ some .directory := by
    rw [h₁.others _ (place_expected_ne_place_input hpart)]
    exact hfree _ ⟨_, .tail _ (.head _), rfl⟩
  obtain ⟨d₂, hrun₂, h₂, hexpected⟩ := (hout.rewritten h₁).exists_runs_create (a := .createFile)
    (filePath_partFile out fold hpart (.tail _ (.head _))) hfree₁
  exact ⟨d₂, hrun₁.bind hrun₂, PartAt.of_two hpart h₁ hinput h₂ hexpected⟩

/-- **The files of a part are written, and nothing else changes.** -/
theorem exists_runs_writePart (hout : PlaceAt d out k) (hpart : part ∈ partNames)
    (hempty : PartAt d k part fold "" "") (lines : List FoldLine) :
    ∃ d', Runs (Corpus.writePart (PartPaths.of out part fold) lines) d () d' ∧
      Rewritten (IsPart k part fold) d d' ∧
      PartAt d' k part fold (inputText lines) (expectedText lines) := by
  obtain ⟨d₁, hrun₁, h₁, hinput⟩ := hout.exists_runs_overwrite (a := .flushFile)
    (inputText lines) (filePath_partFile out fold hpart (.head _)) hempty.input
  have hempty₁ : d₁.at? (k ++ [partFile part fold ".expected"]) = some (.file (.text "")) := by
    rw [h₁.others _ (place_expected_ne_place_input hpart), hempty.expected]
  obtain ⟨d₂, hrun₂, h₂, hexpected⟩ := (hout.rewritten h₁).exists_runs_overwrite (a := .flushFile)
    (expectedText lines) (filePath_partFile out fold hpart (.tail _ (.head _))) hempty₁
  exact ⟨d₂, hrun₁.bind hrun₂, PartAt.of_two hpart h₁ hinput h₂ hexpected⟩

end RepairCorpus
