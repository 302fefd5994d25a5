import RepairCorpus.Yaml.Scalar

/-!
# Collections in YAML

A setting is a scalar, a list or a table.  Lists and tables are written over lines, by dashes and
by keys that begin at one column, or inside brackets.  A setting can be given a name with an
ampersand and be repeated by that name with an asterisk; tags are passed over.

Only scalars serve as keys, and a key stands on one line with its colon, unless a question mark
stands in front of it.  A key may not follow another on one line, and neither may the dash of a
list follow a key.
-/

namespace RepairCorpus.Yaml

open RepairCorpus.Config (Setting)

/-! ## Names and tags -/

/-- Whether a character can be part of the name of a setting. -/
def isAnchorChar (c : Char) : Bool := c.isAlphanum || c = '_' || c = '-'

/-- Whether what follows a name sets it off. -/
def endsAnchor : List Char → Bool
  | [] => true
  | c :: cs => isOff (c :: cs) || ['?', ':', ',', ']', '}', '%', '@', '\x60'].contains c

/-- Reads a name behind its indicator. -/
def readAnchor? (c : Cursor) (cs : List Char) : Option (String × Cursor) :=
  let name := cs.takeWhile isAnchorChar
  let rest := cs.dropWhile isAnchorChar
  if name.isEmpty || !endsAnchor rest then none
  else
    some (String.ofList name,
      { c with rest := rest, column := c.column + 1 + name.length, fresh := false })

/-- Whether a character can be part of a tag. -/
def isTagChar (c : Char) : Bool :=
  isAnchorChar c
    || [';', '/', '?', ':', '@', '&', '=', '+', '$', '.', '%', '!', '~', '*', '\'', '(', ')'].contains c

/-- What follows a tag behind its indicator.  A tag in angle brackets stands for itself; no other
may have a word with an exclamation mark in front, as that would have to be explained before. -/
def dropTag? : List Char → Option (List Char)
  | '<' :: cs =>
    match cs.span fun c => isTagChar c || [',', '[', ']'].contains c with
    | (_ :: _, '>' :: rest) => some rest
    | _ => none
  | '!' :: cs => if cs.head?.any isTagChar then some (cs.dropWhile isTagChar) else none
  | cs =>
    if (cs.dropWhile isAnchorChar).head? = some '!' then none else some (cs.dropWhile isTagChar)

/-- Passes over a tag behind its indicator. -/
def skipTag? (flow : Bool) (c : Cursor) (cs : List Char) : Option Cursor :=
  (dropTag? cs).bind fun rest =>
    if isOff rest || (flow && rest.head? = some ',') then
      some { c with
        rest := rest, column := c.column + 1 + (cs.length - rest.length), fresh := false }
    else none

/-- What stands in front of a setting: its name, and whether there is a tag. -/
structure Properties where
  anchor : Option String
  tagged : Bool

namespace Properties

/-- Nothing in front of a setting. -/
def none : Properties := ⟨.none, false⟩

/-- Whether nothing stands in front of a setting. -/
def isNone (p : Properties) : Bool := p.anchor.isNone && !p.tagged

/-- Whether what stands here cannot follow these properties: neither is given twice, and a setting
that is repeated by its name has none. -/
def clash (p : Properties) : List Char → Bool
  | '&' :: _ => p.anchor.isSome
  | '!' :: _ => p.tagged
  | '*' :: _ => !p.isNone
  | _ => false

end Properties

/-- Reads what stands in front of a setting, behind what has been read; the fuel bounds the number
of properties.  Inside brackets they may stand on lines of their own. -/
def readProperties? (flow : Bool) : Nat → Properties → Cursor → Option (Properties × Cursor)
  | 0, p, c => some (p, c)
  | fuel + 1, p, c =>
    let next := fun c : Cursor => if flow then c.skip true else c.skipGap
    if p.clash c.rest then none
    else
      match c.rest with
      | '&' :: cs =>
        (readAnchor? c cs).bind fun x =>
          readProperties? flow fuel { p with anchor := some x.1 } (next x.2)
      | '!' :: cs =>
        (skipTag? flow c cs).bind fun c =>
          readProperties? flow fuel { p with tagged := true } (next c)
      | _ => some (p, c)

/-! ## Keys -/

/-- Whether an indicator with something to set it off stands here. -/
def isIndicator (mark : Char) : List Char → Bool
  | [] => false
  | c :: cs => c = mark && isOff cs

/-- Whether a dash with something to set it off stands here. -/
def isDash : List Char → Bool := isIndicator '-'

/-- Reads the scalar of a key outside brackets. -/
def readKeyScalar? (low : Nat) (c : Cursor) : Option (List Char × Cursor) :=
  match c.rest with
  | '"' :: _ => readQuoted? c
  | '\'' :: _ => readQuoted? c
  | '*' :: cs => do
    let (name, c) ← readAnchor? c cs
    let s ← c.anchors.lookup name
    let text ← s.text?
    return (text.toList, c)
  | _ => readBare? false low c

/-- Reads a key outside brackets with its colon, if there is one. -/
def readKey? (low : Nat) (c : Cursor) : Option (String × Cursor) := do
  let (p, named) ← readProperties? false 3 .none c
  let (text, behind) ←
    if !p.isNone && isIndicator ':' named.rest then pure ([], named) else readKeyScalar? low named
  let colon := behind.skipGap
  match colon.rest with
  | ':' :: cs =>
    if colon.line = c.line && isOff cs then
      return (String.ofList text, (colon.move cs).name p.anchor (quoted text))
    else failure
  | _ => failure

/-! ## Settings inside brackets -/

mutual

/-- Reads a setting inside brackets. -/
def readFlow? : Nat → Cursor → Option (Setting × Cursor)
  | 0, _ => none
  | fuel + 1, c => do
    let (p, c) ← readProperties? true 3 .none (c.skip true)
    if c.atEnd then failure
    match c.rest with
    | '[' :: cs =>
      let (items, c) ← readFlowItems? fuel [] (c.move cs)
      return (.list items, c.name p.anchor (.list items))
    | '{' :: cs =>
      let (rows, c) ← readFlowRows? fuel [] (c.move cs)
      return (.table rows, c.name p.anchor (.table rows))
    | '*' :: cs =>
      let (name, c) ← readAnchor? c cs
      let s ← c.anchors.lookup name
      return (s, c)
    | '"' :: _ =>
      let (text, c) ← readQuoted? c
      return (quoted text, c.name p.anchor (quoted text))
    | '\'' :: _ =>
      let (text, c) ← readQuoted? c
      return (quoted text, c.name p.anchor (quoted text))
    | d :: cs =>
      if startsBare true (d :: cs) then
        let (text, c) ← readBare? true 0 c
        return (bare text, c.name p.anchor (bare text))
      else if !p.isNone && [',', ':', ']', '}'].contains d then
        return (blank, c.name p.anchor blank)
      else failure
    | [] => failure

/-- Reads what follows a key inside brackets: a colon and a setting, of which either may be
missing. -/
def readFlowValue? : Nat → Cursor → Option (Setting × Cursor)
  | 0, _ => none
  | fuel + 1, c =>
    let c := c.skip true
    match c.rest with
    | ',' :: _ => some (blank, c)
    | ':' :: _ => some (blank, c)
    | '}' :: _ => some (blank, c)
    | ']' :: _ => some (blank, c)
    | _ => readFlow? fuel c

/-- Reads a row inside brackets behind the question mark of its key.  The key, the setting, and
the colon with it may be missing. -/
def readFlowAsked? : Nat → Cursor → Option ((String × Setting) × Cursor)
  | 0, _ => none
  | fuel + 1, c => do
    let (key, c) ← readFlowValue? fuel c
    let text ← key.text?
    let c := c.skip true
    match c.rest with
    | ':' :: cs =>
      let (value, c) ← readFlowValue? fuel (c.move cs)
      return ((text, value), c)
    | _ => return ((text, blank), c)

/-- Reads the items of a list in brackets, behind those that have been read. -/
def readFlowItems? : Nat → List Setting → Cursor → Option (List Setting × Cursor)
  | 0, _, _ => none
  | fuel + 1, items, c => do
    let c := c.skip true
    match c.rest with
    | ']' :: cs => return (items.reverse, c.move cs)
    | _ =>
      let (item, c) ← match c.rest with
        | '?' :: cs => do
          let (row, c) ← readFlowAsked? fuel (c.move cs)
          pure (Setting.table [row], c)
        | _ => do
          let (key, behind) ← readFlow? fuel c
          let colon := behind.skipGap
          match colon.rest with
          | ':' :: cs =>
            if colon.line = c.line then do
              let text ← key.text?
              let (value, c) ← readFlowValue? fuel (colon.move cs)
              pure (Setting.table [(text, value)], c)
            else failure
          | _ => pure (key, behind)
      let c := c.skip true
      match c.rest with
      | ',' :: cs => readFlowItems? fuel (item :: items) (c.move cs)
      | ']' :: cs => return ((item :: items).reverse, c.move cs)
      | _ => failure

/-- Reads the rows of a table in braces, behind those that have been read. -/
def readFlowRows? : Nat → List (String × Setting) → Cursor → Option (List (String × Setting) × Cursor)
  | 0, _, _ => none
  | fuel + 1, rows, c => do
    let c := c.skip true
    match c.rest with
    | '}' :: cs => return (rows.reverse, c.move cs)
    | _ =>
      let (row, c) ← match c.rest with
        | '?' :: cs => readFlowAsked? fuel (c.move cs)
        | _ => do
          let (key, behind) ← readFlow? fuel c
          let text ← key.text?
          let colon := behind.skipGap
          match colon.rest with
          | ':' :: cs =>
            if colon.line = c.line then do
              let (value, c) ← readFlowValue? fuel (colon.move cs)
              pure ((text, value), c)
            else failure
          | _ => pure ((text, blank), behind)
      let c := c.skip true
      match c.rest with
      | ',' :: cs => readFlowRows? fuel (row :: rows) (c.move cs)
      | '}' :: cs => return ((row :: rows).reverse, c.move cs)
      | _ => failure

end

/-! ## Settings over lines -/

mutual

/-- Reads a setting that begins at the column `low` or behind it.  A list that follows a key on a
line of its own may begin one column before it, as `list` says.  Where nothing is found the
setting is blank. -/
def readNode? : Nat → Nat → Bool → Cursor → Option (Setting × Cursor)
  | 0, _, _, _ => none
  | fuel + 1, low, list, c => do
    let c := c.skip false
    let here := c.column
    if c.atEnd then return (blank, c)
    if list && c.fresh && here + 1 = low && isDash c.rest then
      let (items, c) ← readItems? fuel here true [] c
      return (.list items, c)
    if here < low then return (blank, c)
    if isDash c.rest then
      if c.fresh then
        let (items, c) ← readItems? fuel here false [] c
        return (.list items, c)
      else failure
    if c.fresh && isIndicator '?' c.rest then
      let (rows, c) ← readAsked? fuel here [] (c.move (c.rest.drop 1))
      return (.table rows, c)
    if c.fresh then
      if let some (key, c) := readKey? low c then
        let (rows, c) ← readRows? fuel here [] key c
        return (.table rows, c)
    let (p, c) ← readProperties? false 3 .none c
    if !p.isNone then
      let c := c.skip false
      if c.fresh then
        if low ≤ c.column && p.clash c.rest && (readKey? low c).isNone then failure
        let (s, c) ← readNode? fuel low list c
        return (s, c.name p.anchor s)
      if c.rest.isEmpty then return (blank, c.name p.anchor blank)
    match c.rest with
    | '[' :: cs =>
      let (items, c) ← readFlowItems? fuel [] (c.move cs)
      return (.list items, c.name p.anchor (.list items))
    | '{' :: cs =>
      let (rows, c) ← readFlowRows? fuel [] (c.move cs)
      return (.table rows, c.name p.anchor (.table rows))
    | '*' :: cs =>
      let (name, c) ← readAnchor? c cs
      let s ← c.anchors.lookup name
      return (s, c)
    | '|' :: cs =>
      let (text, c) ← readBlock? false low (c.move cs)
      return (quoted text, c.name p.anchor (quoted text))
    | '>' :: cs =>
      let (text, c) ← readBlock? true low (c.move cs)
      return (quoted text, c.name p.anchor (quoted text))
    | '"' :: _ =>
      let (text, c) ← readQuoted? c
      return (quoted text, c.name p.anchor (quoted text))
    | '\'' :: _ =>
      let (text, c) ← readQuoted? c
      return (quoted text, c.name p.anchor (quoted text))
    | _ =>
      let (text, c) ← readBare? false low c
      return (bare text, c.name p.anchor (bare text))

/-- Reads the items of a list whose dashes stand at a column, behind those that have been read.
`loose` says that the list may end where something else stands at that column. -/
def readItems? : Nat → Nat → Bool → List Setting → Cursor → Option (List Setting × Cursor)
  | 0, _, _, _, _ => none
  | fuel + 1, column, loose, items, c => do
    let c := c.skip false
    if c.atEnd || c.column < column then return (items.reverse, c)
    if c.column = column && c.fresh && isDash c.rest then
      let (item, c) ← readNode? fuel (column + 1) false
        { c.move (c.rest.drop 1) with fresh := true }
      readItems? fuel column loose (item :: items) c
    else if loose && c.column = column && c.fresh then return (items.reverse, c)
    else failure

/-- Reads the rows of a table whose keys begin at a column, behind those that have been read, the
next of which has begun with this key. -/
def readRows? : Nat → Nat → List (String × Setting) → String → Cursor →
    Option (List (String × Setting) × Cursor)
  | 0, _, _, _, _ => none
  | fuel + 1, column, rows, key, c => do
    let (value, c) ← readNode? fuel (column + 1) true c
    readNextRow? fuel column ((key, value) :: rows) c

/-- Reads the next rows of such a table, if there are more. -/
def readNextRow? : Nat → Nat → List (String × Setting) → Cursor →
    Option (List (String × Setting) × Cursor)
  | 0, _, _, _ => none
  | fuel + 1, column, rows, c => do
    let c := c.skip false
    if c.atEnd || c.column < column then return (rows.reverse, c)
    if c.column = column && c.fresh && !isDash c.rest then
      if isIndicator '?' c.rest then readAsked? fuel column rows (c.move (c.rest.drop 1))
      else
        let (key, c) ← readKey? (column + 1) c
        readRows? fuel column rows key c
    else failure

/-- Reads the rows of such a table, the next of which has begun with the question mark of its key.
The key, the setting, and the colon with it may be missing. -/
def readAsked? : Nat → Nat → List (String × Setting) → Cursor →
    Option (List (String × Setting) × Cursor)
  | 0, _, _, _ => none
  | fuel + 1, column, rows, c => do
    let (key, c) ← readNode? fuel (column + 1) true { c with fresh := true }
    let text ← key.text?
    let c := c.skip false
    if !c.atEnd && c.column = column && c.fresh && isIndicator ':' c.rest then
      readRows? fuel column rows text { c.move (c.rest.drop 1) with fresh := true }
    else readNextRow? fuel column ((text, blank) :: rows) c

end

end RepairCorpus.Yaml
