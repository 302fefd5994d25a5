import Mathlib.Data.List.Basic
import RepairCorpus.Files.Path

/-!
# Paths of files

A path that is meant for a file leads along some names to a last one, which is neither idle nor the way
up.  Two ways of making such a path are common: a name is put into a directory, or some text is put
behind the beginning that all paths of a run share.

* `pieces_append_slash`, `pieces_append`: the pieces of a text that is put together.
* `FilePath.join`: a name in a directory is the path of a file.
* `FilePath.join_fileName`: so is the last name of a path.
* `FilePath.append`: so is a text behind any beginning, and it ends the file's name; the directory is the
  same whatever the text is.
-/

namespace RepairCorpus.Files

/-! ## Pieces -/

theorem pieces_ne_nil (cs : List Char) : pieces cs ≠ [] := by
  cases cs with
  | nil => exact List.cons_ne_nil _ _
  | cons c cs =>
    rw [pieces]
    split
    next => exact List.cons_ne_nil _ _
    next => split <;> exact List.cons_ne_nil _ _

/-- A character that is no slash goes to the front of the first piece. -/
theorem pieces_cons_of_ne {c : Char} (h : c ≠ '/') {cs p : List Char} {ps : List (List Char)}
    (hcs : pieces cs = p :: ps) : pieces (c :: cs) = (c :: p) :: ps := by
  rw [pieces, if_neg h, hcs]

theorem pieces_append_slash (cs ds : List Char) :
    pieces (cs ++ '/' :: ds) = pieces cs ++ pieces ds := by
  induction cs with
  | nil => rfl
  | cons c cs ih =>
    rw [List.cons_append]
    by_cases hc : c = '/'
    · rw [pieces, if_pos hc, ih, pieces, if_pos hc, List.cons_append]
    · obtain ⟨p, ps, hps⟩ := List.exists_cons_of_ne_nil (pieces_ne_nil cs)
      rw [hps, List.cons_append] at ih
      rw [pieces_cons_of_ne hc ih, pieces_cons_of_ne hc hps, List.cons_append]

theorem pieces_of_notMem {ds : List Char} (h : '/' ∉ ds) : pieces ds = [ds] := by
  induction ds with
  | nil => rfl
  | cons d ds ih =>
    obtain ⟨hd, hds⟩ := not_or.mp (List.mem_cons.not.mp h)
    exact pieces_cons_of_ne (Ne.symm hd) (ih hds)

/-- A text without a slash that is put behind another one goes to the end of its last piece. -/
theorem pieces_append (cs : List Char) :
    ∃ ps q, pieces cs = ps ++ [q] ∧ ∀ ds, '/' ∉ ds → pieces (cs ++ ds) = ps ++ [q ++ ds] := by
  induction cs with
  | nil => exact ⟨[], [], rfl, fun ds hds => pieces_of_notMem hds⟩
  | cons c cs ih =>
    obtain ⟨ps, q, hcs, happend⟩ := ih
    by_cases hc : c = '/'
    · refine ⟨[] :: ps, q, ?_, fun ds hds => ?_⟩
      · rw [pieces, if_pos hc, hcs, List.cons_append]
      · rw [List.cons_append, pieces, if_pos hc, happend ds hds, List.cons_append]
    · cases ps with
      | nil =>
        refine ⟨[], c :: q, pieces_cons_of_ne hc hcs, fun ds hds => ?_⟩
        exact pieces_cons_of_ne hc (happend ds hds)
      | cons p ps =>
        refine ⟨(c :: p) :: ps, q, pieces_cons_of_ne hc hcs, fun ds hds => ?_⟩
        exact pieces_cons_of_ne hc (happend ds hds)

/-- No piece has a slash in it. -/
theorem slash_notMem_of_mem_pieces {cs p : List Char} (h : p ∈ pieces cs) : '/' ∉ p := by
  induction cs generalizing p with
  | nil =>
    rw [List.mem_singleton.mp h]
    exact List.not_mem_nil
  | cons c cs ih =>
    by_cases hc : c = '/'
    · rw [pieces, if_pos hc] at h
      rcases List.mem_cons.mp h with rfl | h
      · exact List.not_mem_nil
      · exact ih h
    · obtain ⟨q, qs, hqs⟩ := List.exists_cons_of_ne_nil (pieces_ne_nil cs)
      rw [pieces_cons_of_ne hc hqs] at h
      rw [hqs] at ih
      rcases List.mem_cons.mp h with rfl | h
      · intro hmem
        rcases List.mem_cons.mp hmem with heq | hmem
        · exact hc heq.symm
        · exact ih (.head _) hmem
      · exact ih (.tail _ h)

/-! ## Paths of files -/

/-- `FilePath path above name` holds if a path leads along the names `above` to the name of a file. -/
structure FilePath (path : String) (above : List String) (name : String) : Prop where
  nonempty : path.isEmpty = false
  names : names path = above ++ [name]
  ne_up : name ≠ up
  endsIdle : endsIdle path = false

theorem FilePath.of_pieces {path : String} {ps : List (List Char)} {q : List Char}
    (h : pieces path.toList = ps ++ [q]) (hidle : isIdle q = false) (hup : String.ofList q ≠ up) :
    FilePath path ((ps.filter fun p => !isIdle p).map String.ofList) (String.ofList q) where
  nonempty := by
    refine Bool.eq_false_iff.mpr fun hempty => ?_
    have hpath : path = "" := String.isEmpty_iff.mp hempty
    rw [hpath] at h
    have hlast := congrArg List.getLast? h
    rw [List.getLast?_concat] at hlast
    cases hlast
    cases hidle
  names := by
    rw [Files.names, h, List.filter_append, List.map_append, List.filter_cons_of_pos (by rw [hidle]; rfl)]
    rfl
  ne_up := hup
  endsIdle := by
    rw [Files.endsIdle, h, List.reverse_append, List.reverse_singleton, List.singleton_append]
    split
    next heq =>
      obtain ⟨rfl, -⟩ := List.cons.inj heq
      exact hidle
    next => rfl

/-- **A name in a directory** is the path of a file. -/
theorem FilePath.join (directory : String) {name : String} (hslash : '/' ∉ name.toList)
    (hidle : isIdle name.toList = false) (hup : name ≠ up) :
    FilePath (Files.join directory name) (Files.names directory) name := by
  have hup' : String.ofList name.toList ≠ up := by rwa [String.ofList_toList]
  have hrelative : isAbsolute name = false := by
    refine decide_eq_false fun hhead => hslash ?_
    exact List.mem_of_mem_head? hhead
  have hname : pieces name.toList = [name.toList] := pieces_of_notMem hslash
  have hfile (path : String) (ps : List (List Char)) (h : pieces path.toList = ps ++ [name.toList])
      (hnames : ps.filter (fun p => !isIdle p) = (pieces directory.toList).filter fun p => !isIdle p) :
      FilePath path (Files.names directory) name := by
    have hfile := FilePath.of_pieces h hidle hup'
    rw [hnames, String.ofList_toList] at hfile
    exact hfile
  rw [Files.join, hrelative, Bool.false_or]
  by_cases hempty : directory.isEmpty = true
  · rw [if_pos hempty]
    refine hfile name [] hname ?_
    rw [String.isEmpty_iff.mp hempty]
    rfl
  · rw [if_neg hempty]
    split
    next hlast =>
      obtain ⟨cs, hcs⟩ := List.getLast?_eq_some_iff.mp hlast
      refine hfile (directory ++ name) (pieces cs) ?_ ?_
      · rw [String.toList_append, hcs, List.append_assoc, List.singleton_append, pieces_append_slash,
          hname]
      · rw [hcs, pieces_append_slash, List.filter_append]
        exact (List.append_nil _).symm
    next =>
      refine hfile (directory ++ "/" ++ name) (pieces directory.toList) ?_ rfl
      rw [String.toList_append, String.toList_append, List.append_assoc]
      show pieces (directory.toList ++ '/' :: name.toList) = _
      rw [pieces_append_slash, hname]

/-- **The last name of a path, in a directory**, is the path of a file. -/
theorem FilePath.join_fileName (directory : String) {path name : String} (h : fileName? path = some name) :
    FilePath (Files.join directory name) (Files.names directory) name := by
  obtain ⟨hlast, hup⟩ := Option.filter_eq_some_iff.mp h
  obtain ⟨p, hp, rfl⟩ := List.mem_map.mp (List.mem_of_mem_getLast? hlast)
  obtain ⟨hpiece, hidle⟩ := List.mem_filter.mp hp
  refine FilePath.join directory ?_ ?_ (of_decide_eq_true hup)
  · rw [String.toList_ofList]
    exact slash_notMem_of_mem_pieces hpiece
  · rw [String.toList_ofList]
    exact (Bool.not_eq_true' _).mp hidle

/-- The names that lead to the directory of the files whose paths have a beginning. -/
def namesAbove (start : String) : List String :=
  ((pieces start.toList).dropLast.filter fun p => !isIdle p).map String.ofList

/-- What the names of the files begin with whose paths have a beginning. -/
def nameFront (start : String) : String := String.ofList ((pieces start.toList).getLastD [])

/-- **A text behind any beginning** is the path of a file whose name it ends. -/
theorem FilePath.append (start : String) {tail : String} (hslash : '/' ∉ tail.toList)
    (hlong : 2 < tail.toList.length) :
    FilePath (start ++ tail) (namesAbove start) (nameFront start ++ tail) := by
  obtain ⟨ps, q, hstart, happend⟩ := pieces_append start.toList
  have hpieces : pieces (start ++ tail).toList = ps ++ [q ++ tail.toList] := by
    rw [String.toList_append]
    exact happend tail.toList hslash
  have hne {short : List Char} (hshort : short.length ≤ 2) : q ++ tail.toList ≠ short := by
    intro heq
    have hlength := congrArg List.length heq
    rw [List.length_append] at hlength
    omega
  have hidle : isIdle (q ++ tail.toList) = false := by
    rw [isIdle, decide_eq_false (hne (by decide)), decide_eq_false (hne (by decide))]
    rfl
  have hup : String.ofList (q ++ tail.toList) ≠ up := by
    intro h
    refine hne (by decide) (?_ : q ++ tail.toList = up.toList)
    rw [← h, String.toList_ofList]
  have hfile := FilePath.of_pieces hpieces hidle hup
  rw [String.ofList_append, String.ofList_toList] at hfile
  rw [namesAbove, nameFront, hstart, List.dropLast_concat, List.getLastD_concat]
  exact hfile

end RepairCorpus.Files
