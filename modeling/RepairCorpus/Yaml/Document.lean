import RepairCorpus.Yaml.Node

/-!
# YAML documents

A text holds at most one document.  The document may have a marker in front, and the marker may
have lines in front that tell the version of the notation; behind the document there may be
another marker.  A text without a document is like an empty table.

Characters that cannot be printed do not occur, and lines end with a line feed, with a carriage
return, or with both.
-/

namespace RepairCorpus.Yaml

open RepairCorpus.Config (Setting)

/-- The ranges of characters that may occur. -/
def printableRanges : List (Nat × Nat) :=
  [(0x9, 0xA), (0xD, 0xD), (0x20, 0x7E), (0x85, 0x85), (0xA0, 0xD7FF), (0xE000, 0xFEFE),
    (0xFF00, 0xFFFD), (0x10000, 0x10FFFF)]

/-- Whether a character may occur. -/
def isPrintable (c : Char) : Bool :=
  printableRanges.any fun r => r.1 ≤ c.toNat && c.toNat ≤ r.2

/-- Makes a single line feed of every line end. -/
def plainLines : List Char → List Char
  | '\r' :: '\n' :: cs => '\n' :: plainLines cs
  | '\r' :: cs => '\n' :: plainLines cs
  | '\u0085' :: cs => '\n' :: plainLines cs
  | c :: cs => c :: plainLines cs
  | [] => []

/-- Drops a byte order mark at the beginning. -/
def dropMark : List Char → List Char
  | '\uFEFF' :: cs => cs
  | cs => cs

/-- Whether a line tells a version that is understood. -/
def isVersion (line : List Char) : Bool :=
  match (String.ofList line).splitOn " " |>.filter (· ≠ "") with
  | "%YAML" :: "1.1" :: rest => rest.head?.all (·.startsWith "#")
  | "%YAML" :: "1.2" :: rest => rest.head?.all (·.startsWith "#")
  | _ => false

/-- Passes over the lines in front of a document and its marker.  The second result says whether
there is a marker. -/
def openDocument? (c : Cursor) : Option (Cursor × Bool) :=
  let c := c.skip false
  let behindMarker := fun c : Cursor =>
    { c with rest := c.rest.drop 3, column := 3, fresh := false }
  match c.rest with
  | '%' :: _ =>
    let (line, rest) := splitLine c.rest
    if c.column ≠ 0 || !isVersion line then none
    else
      let c := ({ c with rest := rest.getD [], line := c.line + 1 } : Cursor).skip false
      if c.column = 0 && isMarker c.rest && c.rest.head? = some '-' then some (behindMarker c, true)
      else none
  | '-' :: _ =>
    if c.column = 0 && isMarker c.rest then some (behindMarker c, true) else some (c, false)
  | _ => some (c, false)

/-- Whether nothing but an end marker and comments follow. -/
def closesDocument (c : Cursor) : Bool :=
  let c := c.skip false
  match c.rest with
  | [] => true
  | '.' :: '.' :: '.' :: rest =>
    let (line, behind) := splitLine rest
    let remark := line.dropWhile isGap
    c.column = 0 && isMarker c.rest && (remark.isEmpty || remark.head? = some '#')
      && (Cursor.skip (.start (behind.getD [])) false).rest.isEmpty
  | _ => false

/-- The document of a text. -/
def readDocument? (text : String) : Option Setting :=
  let cs := dropMark text.toList
  if !cs.all isPrintable then none
  else
    match openDocument? (.start (plainLines cs)) with
    | none => none
    | some (c, marked) =>
      if !marked && c.rest.isEmpty then some blank
      else
        match readNode? (2 * cs.length + 2) 0 false c with
        | none => none
        | some (s, c) => if closesDocument c then some s else none

end RepairCorpus.Yaml
