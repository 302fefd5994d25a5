import RepairCorpus.Proofs.Files.WrittenFiles
import RepairCorpus.Proofs.Text.Lines
import RepairCorpus.Proofs.Vocabulary.KnownWords
import RepairCorpus.Vocabulary.File

/-!
# Vocabularies that are saved and loaded

The words to know are saved with line feeds between them and loaded line by line, empty lines left out.
A word would be lost or torn apart if it were empty, had a line feed of its own or ended in a carriage
return.  Only a name can be such a word: the blanks of a literal are squeezed before it becomes one, and
the empty word is passed over when it is mined.

* `Node.Unbroken`: the names of a tree have no line breaks that would be lost.
* `VocabularyBuilder.lines_render_topWords`: the lines of the file are the words.
* `VocabularyBuilder.load_saved`: **a mined vocabulary survives its file**.
-/

namespace RepairCorpus

open Files (Directory)

/-! ## Words without line breaks -/

/-- A text that is a line of a file as it is, if it is not empty. -/
structure LineWord (w : String) : Prop where
  noFeed : '\n' ∉ w.toList
  noReturn : w.toList.getLast? ≠ some '\r'

/-- A token of a literal has no blanks, whatever its source text. -/
theorem lineWord_literalToken (raw : String) : LineWord (literalToken raw) := by
  have hsolid : ∀ c ∈ (literalToken raw).toList, Text.isBlank c = false := fun c hc => by
    rw [literalToken, Text.squeeze, String.toList_ofList] at hc
    exact Text.isBlank_of_mem_squeezeFrom hc
  refine ⟨fun hmem => ?_, fun hlast => ?_⟩
  · exact absurd (hsolid '\n' hmem) (by decide)
  · exact absurd (hsolid '\r' (List.mem_of_mem_getLast? hlast)) (by decide)

namespace Node

/-- No name of a tree has a line feed or ends in a carriage return. -/
def Unbroken (n : Node) : Prop :=
  ∀ m ∈ n.nodes, ∀ name, m.form = .identifier name → LineWord name

theorem Unbroken.lineWord {n : Node} {w : String} (h : n.Unbroken) (hw : w ∈ n.words) : LineWord w := by
  obtain ⟨⟨own, underlying, form⟩, hm, hword⟩ := mem_words_iff.mp hw
  cases form with
  | identifier name =>
    obtain rfl : name = w := Option.some.inj hword
    exact h _ hm name rfl
  | literal value raw regex =>
    obtain rfl : w = literalToken raw := Form.eq_of_word?_literal hword
    exact lineWord_literalToken raw
  | _ => cases hword

end Node

/-! ## Files of words -/

namespace Vocabulary

/-- Words that are lines are loaded as they were saved. -/
theorem parse_render {ws : List String} (hne : "" ∉ ws) (h : ∀ w ∈ ws, LineWord w) :
    Text.lines (render ws) = ws ∧ parse (render ws) = ofList ws := by
  have hlines : Text.lines (render ws) = ws := Text.lines_intercalate fun w hw =>
    ⟨fun hempty => hne (hempty ▸ hw), (h w hw).noFeed, (h w hw).noReturn⟩
  have hall : ws.filter (!·.isEmpty) = ws := List.filter_eq_self.mpr fun w hw => by
    rw [Bool.not_eq_true', Bool.eq_false_iff, Ne, String.isEmpty_iff]
    exact fun hempty => hne (hempty ▸ hw)
  refine ⟨hlines, ?_⟩
  rw [parse, hlines, hall]

/-- A set of different words has all of them. -/
theorem size_ofList {ws : List String} (h : ws.Nodup) : (ofList ws).size = ws.length :=
  Std.HashSet.size_ofList (h.imp fun hne => beq_eq_false_iff_ne.mpr hne)

/-- **What is saved is loaded again**: words are saved where a file can be made, and loading them is
reading the text that was written. -/
theorem exists_runs_save_load {d d₁ d₂ : Directory} {path : String}
    (hparent : d.makeParent path = .ok d₁) (hcreate : d₁.create path = .ok d₂) (ws : List String) :
    ∃ d', Work.Runs (save path ws) d () d' ∧ Work.Runs (load path) d' (parse (render ws)) d' := by
  obtain ⟨l, d', -, hwrite, -, hread⟩ :=
    Work.Runs.exists_writeFile .writeVocabulary (render ws) hcreate
  exact ⟨d', (Work.Runs.makeParent hparent).bind hwrite,
    (Work.Runs.attempt_read hread).bind (Work.Runs.pure _ _)⟩

end Vocabulary

/-! ## Mined words -/

namespace VocabularyBuilder

variable {b : VocabularyBuilder}

theorem topWords_perm (b : VocabularyBuilder) :
    b.topWords.Perm (b.miner.residents.map Resident.word) :=
  b.miner.ranking_perm.map Resident.word

theorem nodup_topWords (h : b.miner.Linked) : b.topWords.Nodup :=
  b.topWords_perm.nodup_iff.mpr h.nodup_words

/-- The words to know have been read, and the empty word is none. -/
theorem mem_words_of_mem_topWords {words : List String} (h : b.miner.Exact words) {w : String}
    (hw : w ∈ b.topWords) : w ∈ words ∧ w ≠ "" := by
  obtain ⟨r, hr, rfl⟩ := List.mem_map.mp (b.topWords_perm.mem_iff.mp hw)
  exact mem_distinctWords.mp (h.resident hr).1

/-- The lines of the file are the words, and the vocabulary loaded from it is the one that was mined. -/
theorem lines_render_topWords {trees : List Node} (hunbroken : ∀ t ∈ trees, t.Unbroken)
    (h : b.miner.Exact (trees.flatMap Node.words)) :
    Text.lines (Vocabulary.render b.topWords) = b.topWords ∧
      Vocabulary.parse (Vocabulary.render b.topWords) = b.build := by
  refine Vocabulary.parse_render (fun hempty => (mem_words_of_mem_topWords h hempty).2 rfl) fun w hw => ?_
  obtain ⟨t, ht, hwt⟩ := List.mem_flatMap.mp (mem_words_of_mem_topWords h hw).1
  exact (hunbroken t ht).lineWord hwt

/-- **A mined vocabulary survives its file.**  Let trees be mined whose names have no line feed and do not
end in a carriage return, with any number of places; their literals may have any source text.  The words
to know are saved where the directory of the file can be made and the file itself can be made in it.
Loading the file gives the vocabulary that was mined.  It has as many words as there are residents, and
the lines of the file are the residents' words, each once; none is empty. -/
theorem load_saved {size : Nat} (hsize : 1 ≤ size) {trees : List Node}
    (hunbroken : ∀ t ∈ trees, t.Unbroken) {d d₁ d₂ : Directory} {path : String}
    (hparent : d.makeParent path = .ok d₁) (hcreate : d₁.create path = .ok d₂) :
    ∃ start, new size = .ok start ∧
      let b := trees.foldl addTree start
      (∃ d', Work.Runs (Vocabulary.save path b.topWords) d () d' ∧
        Work.Runs (Vocabulary.load path) d' b.build d') ∧
      b.build.size = b.miner.residents.length ∧
      Text.lines (Vocabulary.render b.topWords) = b.topWords ∧
      b.topWords.Perm (b.miner.residents.map Resident.word) ∧ b.topWords.Nodup ∧ "" ∉ b.topWords := by
  obtain ⟨start, hstart, hexact, -⟩ := exact_addTrees hsize trees
  have hnodup := nodup_topWords hexact.intact.linked
  obtain ⟨hlines, hparse⟩ := lines_render_topWords hunbroken hexact
  obtain ⟨d', hsave, hload⟩ := Vocabulary.exists_runs_save_load hparent hcreate
    (trees.foldl addTree start).topWords
  rw [hparse] at hload
  refine ⟨start, hstart, ⟨d', hsave, hload⟩, ?_, hlines, topWords_perm _, hnodup,
    fun hempty => (mem_words_of_mem_topWords hexact hempty).2 rfl⟩
  rw [build, Vocabulary.size_ofList hnodup, (topWords_perm _).length_eq, List.length_map]

open Node (untagged)

/-- A sum of a name with a carriage return inside and a literal of two lines. -/
def brokenSum : Node :=
  untagged (.expressionStatement (untagged (.binaryExpression "+" (untagged (.identifier "a\rb"))
    (untagged (.literal (.text "c\nd") "`c\r\nd`" none)))))

/-- Both words are saved in a directory that has to be made first. -/
theorem load_saved_brokenSum : 1 ≤ 2 ∧ ∃ start, new 2 = .ok start ∧
    let b := [brokenSum].foldl addTree start
    (∃ d', Work.Runs (Vocabulary.save "out/words.txt" b.topWords) .empty () d' ∧
      Work.Runs (Vocabulary.load "out/words.txt") d' b.build d') ∧
    b.build.size = b.miner.residents.length ∧ "" ∉ b.topWords := by
  have hunbroken : ∀ t ∈ [brokenSum], t.Unbroken := by
    intro t ht m hm name hname
    obtain rfl := List.mem_singleton.mp ht
    simp only [brokenSum, untagged, Node.nodes_mk, Form.children, List.flatMap_cons, List.flatMap_nil,
      List.append_nil, List.cons_append, List.nil_append, List.mem_cons, List.not_mem_nil,
      or_false] at hm
    rcases hm with rfl | rfl | rfl | rfl
    · cases hname
    · cases hname
    · obtain rfl : "a\rb" = name := by
        injection hname
      exact ⟨by decide, by decide⟩
    · cases hname
  have hparent : Directory.makeParent .empty "out/words.txt" = .ok ⟨[(["out"], .directory)]⟩ := by decide
  have hcreate : Directory.create ⟨[(["out"], .directory)]⟩ "out/words.txt"
      = .ok (Directory.put ⟨[(["out"], .directory)]⟩ ["out", "words.txt"] (.file .empty)) := by decide
  obtain ⟨start, hstart, hfile, hlength, -, -, -, hempty⟩ :=
    load_saved (show 1 ≤ 2 by decide) hunbroken hparent hcreate
  exact ⟨by decide, start, hstart, hfile, hlength, hempty⟩

end VocabularyBuilder

end RepairCorpus
