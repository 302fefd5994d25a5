import RepairCorpus.Toml.Value

/-!
# TOML documents

A document is a sequence of lines that open a table or add a pair to the table opened last.  Pairs
in front of the first header belong to the document's own table.  Behind a header or a pair there
may only be a comment on the same line.

Lines end with a line feed, before which there may be a carriage return; such pairs are made one
character before anything is read.
-/

namespace RepairCorpus.Toml

open RepairCorpus.Config (Setting)

/-- Drops a carriage return in front of each line feed. -/
def plainLines : List Char → List Char
  | '\r' :: '\n' :: cs => '\n' :: plainLines cs
  | c :: cs => c :: plainLines cs
  | [] => []

/-- Drops a byte order mark at the beginning. -/
def dropMark : List Char → List Char
  | '\uFEFF' :: cs => cs
  | cs => cs

/-- A document under construction: the rows of its table, and the path of the table opened last. -/
structure Draft where
  rows : Rows
  opened : List String
  deriving Inhabited

/-- Passes over the rest of a line, where there may only be blanks and a comment. -/
def endLine? (cs : List Char) : Option (List Char) :=
  match skipGap cs with
  | [] => some []
  | '\n' :: cs => some cs
  | '#' :: cs => (skipComment cs).map (List.drop 1)
  | _ => none

namespace Draft

/-- Reads a header in single brackets, behind the bracket. -/
def readHeader? (d : Draft) (cs : List Char) : Option (Draft × List Char) :=
  match readKey? (nestingBound - 1) cs with
  | some (key, ']' :: rest) => do
    let rest ← endLine? rest
    let rows ← d.rows.openTable (splitKey key).1 (splitKey key).2
    return (⟨rows, key⟩, rest)
  | _ => none

/-- Reads a header in double brackets, behind the brackets. -/
def readNextHeader? (d : Draft) (cs : List Char) : Option (Draft × List Char) :=
  match readKey? (nestingBound - 1) cs with
  | some (key, ']' :: ']' :: rest) => do
    let rest ← endLine? rest
    let rows ← d.rows.openNext (splitKey key).1 (splitKey key).2
    return (⟨rows, key⟩, rest)
  | _ => none

/-- Reads a pair. -/
def readPair? (d : Draft) (cs : List Char) : Option (Draft × List Char) :=
  match readKey? (nestingBound - 1) cs with
  | some (key, '=' :: cs) => do
    let (value, rest) ← readValue? (nestingBound - 1) (cs.length + 1) (skipGap cs)
    let rest ← endLine? rest
    let rows ← d.rows.changeOpened d.opened
      (Rows.addPair (splitKey key).1 (splitKey key).2 (.value value))
    return (⟨rows, d.opened⟩, rest)
  | _ => none

/-- Reads the lines of a document.  The fuel bounds their number. -/
def readAll? : Nat → Draft → List Char → Option Draft
  | 0, _, _ => none
  | fuel + 1, d, cs =>
    match skipGap cs with
    | [] => some d
    | '\n' :: rest => readAll? fuel d rest
    | '#' :: rest => (skipComment rest).bind fun rest => readAll? fuel d (rest.drop 1)
    | '[' :: '[' :: rest => (d.readNextHeader? rest).bind fun x => readAll? fuel x.1 x.2
    | '[' :: rest => (d.readHeader? rest).bind fun x => readAll? fuel x.1 x.2
    | cs => (d.readPair? cs).bind fun x => readAll? fuel x.1 x.2

end Draft

/-- The document of a text. -/
def readDocument? (text : String) : Option Setting :=
  let cs := plainLines (dropMark text.toList)
  (Draft.readAll? (cs.length + 1) ⟨[], []⟩ cs).map fun d => .table (settingsOf d.rows)

end RepairCorpus.Toml
