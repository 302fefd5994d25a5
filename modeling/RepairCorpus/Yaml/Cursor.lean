import RepairCorpus.Config.Setting

/-!
# Reading places in YAML

In YAML the column of a word decides where it belongs, so a reader carries its line and column
along.  It also has to know whether a new collection may begin where it stands.  At the beginning
of a line and behind the dash of a list it may, behind a key or a scalar it may not; only where it
may not, a tab counts as a blank.

In the text that is read every line ends with a line feed alone.
-/

namespace RepairCorpus.Yaml

open RepairCorpus.Config (Setting)

/-- A place in a text. -/
structure Cursor where
  /-- The characters from here on. -/
  rest : List Char
  line : Nat
  column : Nat
  /-- Whether a collection may begin here. -/
  fresh : Bool
  /-- The settings that have been given a name so far, the last one first. -/
  anchors : List (String × Setting)
  deriving Inhabited

/-- Whether a character is a blank inside a line. -/
def isGap (c : Char) : Bool := c = ' ' || c = '\t'

/-- Whether what follows an indicator sets it off: a blank, a line end, or nothing. -/
def isOff : List Char → Bool
  | [] => true
  | c :: _ => isGap c || c = '\n'

/-- Whether a character has a meaning of its own inside brackets. -/
def isFlowMark (c : Char) : Bool := [',', '[', ']', '{', '}'].contains c

/-- Whether some characters begin with the marker of a document's start or end. -/
def isMarker : List Char → Bool
  | '-' :: '-' :: '-' :: cs => isOff cs
  | '.' :: '.' :: '.' :: cs => isOff cs
  | _ => false

namespace Cursor

/-- The place at the beginning of a text. -/
def start (cs : List Char) : Cursor := ⟨cs, 0, 0, true, []⟩

/-- The place behind one more character of the line. -/
def move (c : Cursor) (rest : List Char) : Cursor :=
  { c with rest := rest, column := c.column + 1, fresh := false }

/-- Whether the document ends here. -/
def atEnd (c : Cursor) : Bool := c.rest.isEmpty || (c.column = 0 && isMarker c.rest)

/-- Passes over blanks, comments and line ends; `comment` says that a comment has begun, and
`flow` that the place is inside brackets. -/
def skipFrom (flow comment : Bool) (line column : Nat) (fresh : Bool) :
    List Char → List Char × Nat × Nat × Bool
  | [] => ([], line, column, fresh)
  | c :: cs =>
    if c = '\n' then skipFrom flow false (line + 1) 0 (fresh || !flow) cs
    else if comment || c = ' ' || (c = '\t' && (flow || !fresh)) then
      skipFrom flow comment line (column + 1) fresh cs
    else if c = '#' then skipFrom flow true line (column + 1) fresh cs
    else (c :: cs, line, column, fresh)

/-- The place of the next word. -/
def skip (c : Cursor) (flow : Bool) : Cursor :=
  let (rest, line, column, fresh) := skipFrom flow false c.line c.column c.fresh c.rest
  { c with rest := rest, line := line, column := column, fresh := fresh }

/-- Passes over blanks inside the line. -/
def skipGap (c : Cursor) : Cursor :=
  { c with
    rest := c.rest.dropWhile isGap
    column := c.column + (c.rest.takeWhile isGap).length }

/-- Gives a setting a name. -/
def name (c : Cursor) (anchor : Option String) (s : Setting) : Cursor :=
  match anchor with
  | none => c
  | some a => { c with anchors := (a, s) :: c.anchors }

end Cursor

end RepairCorpus.Yaml
