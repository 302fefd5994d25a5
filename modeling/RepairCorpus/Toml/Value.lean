import RepairCorpus.Toml.Quoted
import RepairCorpus.Toml.Scalar
import RepairCorpus.Toml.Table

/-!
# Values and keys in TOML

A value is a scalar, an array in brackets or a table in braces.  An array may go over lines and
may have comments and a comma at its end; a table in braces has none of these.  Arrays and tables
nest less than eighty deep, and a key has less than eighty names.

Readers take a list of characters and give what they have read and what follows.  In the text they
read, every line ends with a line feed alone.
-/

namespace RepairCorpus.Toml

open RepairCorpus.Config (Setting)

/-- Nesting and keys stay below this bound. -/
def nestingBound : Nat := 80

/-! ## Gaps -/

/-- Whether a character is a blank inside a line. -/
def isGap (c : Char) : Bool := c = ' ' || c = '\t'

/-- Passes over blanks. -/
def skipGap (cs : List Char) : List Char := cs.dropWhile isGap

/-- Passes over a comment up to the end of the line. -/
def skipComment : List Char → Option (List Char)
  | [] => some []
  | c :: cs =>
    if c = '\n' then some (c :: cs) else if isControl c then none else skipComment cs

/-- Passes over blanks, line ends and comments; `comment` says that a comment has begun. -/
def skipLines (comment : Bool) : List Char → Option (List Char)
  | [] => some []
  | c :: cs =>
    if c = '\n' then skipLines false cs
    else if comment then if isControl c then none else skipLines true cs
    else if isGap c then skipLines false cs
    else if c = '#' then skipLines true cs
    else some (c :: cs)

/-! ## Keys -/

/-- Whether a character can be part of a name without quotes. -/
def isNameChar (c : Char) : Bool := c.isAlphanum || c = '_' || c = '-'

/-- A name, with blanks around it. -/
def readName? (cs : List Char) : Option (String × List Char) :=
  match skipGap cs with
  | [] => none
  | c :: cs =>
    if c = '"' ∨ c = '\'' then (read? false (c :: cs)).map fun x => (x.1, skipGap x.2)
    else
      let name := (c :: cs).takeWhile isNameChar
      if name.isEmpty then none
      else some (String.ofList name, skipGap ((c :: cs).dropWhile isNameChar))

/-- A key: names with dots between them, at most `n` of them. -/
def readKey? : Nat → List Char → Option (List String × List Char)
  | 0, _ => none
  | n + 1, cs =>
    match readName? cs with
    | none => none
    | some (name, '.' :: rest) => (readKey? n rest).map fun x => (name :: x.1, x.2)
    | some (name, rest) => some ([name], rest)

/-- A key as the names in front and the last name. -/
def splitKey : List String → List String × String
  | [] => ([], "")
  | [name] => ([], name)
  | name :: names => let (path, last) := splitKey names; (name :: path, last)

/-! ## Values -/

mutual

/-- A value, which may contain arrays and tables `depth` deep.  The fuel bounds the number of
steps. -/
def readValue? (depth : Nat) : Nat → List Char → Option (Setting × List Char)
  | 0, _ => none
  | fuel + 1, cs =>
    match cs with
    | '"' :: _ => (read? true cs).map fun x => (.scalar (.ofText x.1), x.2)
    | '\'' :: _ => (read? true cs).map fun x => (.scalar (.ofText x.1), x.2)
    | '[' :: cs =>
      if depth = 0 then none
      else (readItems? (depth - 1) fuel [] cs).map fun x => (.list x.1, x.2)
    | '{' :: cs =>
      if depth = 0 then none
      else
        match skipGap cs with
        | '}' :: rest => some (.table [], rest)
        | cs => (readPairs? (depth - 1) fuel [] cs).map fun x => (.table (settingsOf x.1), x.2)
    | cs => readUnquoted? cs

/-- The items of an array up to its closing bracket, behind those that have been read. -/
def readItems? (depth : Nat) : Nat → List Setting → List Char → Option (List Setting × List Char)
  | 0, _, _ => none
  | fuel + 1, items, cs =>
    match skipLines false cs with
    | none => none
    | some (']' :: rest) => some (items.reverse, rest)
    | some cs =>
      match readValue? depth fuel cs with
      | none => none
      | some (item, cs) =>
        match skipLines false cs with
        | some (',' :: rest) => readItems? depth fuel (item :: items) rest
        | some (']' :: rest) => some ((item :: items).reverse, rest)
        | _ => none

/-- The pairs of a table in braces up to its closing brace, behind those that have been read. -/
def readPairs? (depth : Nat) : Nat → Rows → List Char → Option (Rows × List Char)
  | 0, _, _ => none
  | fuel + 1, rows, cs =>
    match readKey? (nestingBound - 1) cs with
    | some (key, '=' :: cs) =>
      match readValue? depth fuel (skipGap cs) with
      | none => none
      | some (value, cs) =>
        match rows.addPair (splitKey key).1 (splitKey key).2 (.value value), skipGap cs with
        | some rows, ',' :: rest => readPairs? depth fuel rows rest
        | some rows, '}' :: rest => some (rows, rest)
        | _, _ => none
    | _ => none

end

end RepairCorpus.Toml
