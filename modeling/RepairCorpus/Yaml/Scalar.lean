import RepairCorpus.Text.Digits
import RepairCorpus.Yaml.Cursor

/-!
# Scalars in YAML

A scalar is written bare, in quotes of either kind, or as a block of indented lines.  All but
bare scalars are texts only.  A bare scalar is a text as well, but it can also be taken for a
number or a truth value if it looks like one, and for an empty table if it is empty.

Inside bare and quoted scalars a line end counts as a blank, and each further one as a line feed.
-/

namespace RepairCorpus.Yaml

open RepairCorpus.Config (Setting Scalar)

/-! ## What bare scalars can be taken for -/

/-- The value of digits in a base. -/
def digitsFrom? (base n : Nat) : List Char → Option Nat
  | [] => some n
  | c :: cs => (Text.digitIn? base c).bind fun d => digitsFrom? base (base * n + d) cs

/-- The value of at least one digit in a base, within the range of a machine word. -/
def word? (base : Nat) (cs : List Char) : Option Nat :=
  if cs.isEmpty then none else (digitsFrom? base 0 cs).filter (· < Scalar.wordBound)

/-- The number a bare scalar looks like: digits, with a letter for a base other than ten, and with
a sign or without.  A decimal number has no superfluous zero in front. -/
def number? (cs : List Char) : Option Nat :=
  let unsigned := match cs with
    | '+' :: cs => cs
    | cs => cs
  match unsigned with
  | '0' :: 'x' :: digits => word? 16 digits
  | '0' :: 'o' :: digits => word? 8 digits
  | '0' :: 'b' :: digits => word? 2 digits
  | '0' :: _ :: _ => none
  | digits => word? 10 digits

/-- The truth value a bare scalar looks like. -/
def flag? (s : String) : Option Bool :=
  if ["true", "True", "TRUE"].contains s then some true
  else if ["false", "False", "FALSE"].contains s then some false
  else none

/-- A bare scalar. -/
def bare (cs : List Char) : Setting :=
  let s := String.ofList cs
  .scalar ⟨number? cs, flag? s, some s, cs.isEmpty⟩

/-- A scalar that is a text only. -/
def quoted (cs : List Char) : Setting := .scalar (.ofText (String.ofList cs))

/-- Nothing at all, where a setting is expected. -/
def blank : Setting := bare []

/-! ## Folding -/

/-- What stands for blanks and line ends between two words, in reverse. -/
def fold (gap : List Char) : Nat → List Char
  | 0 => gap
  | 1 => [' ']
  | n + 2 => List.replicate (n + 1) '\n'

/-! ## Bare scalars -/

/-- Whether a bare scalar can begin with some characters. -/
def startsBare (flow : Bool) : List Char → Bool
  | [] => false
  | c :: cs =>
    if c = '-' then !isOff cs
    else if c = '?' || c = ':' then !flow && !isOff cs
    else !(isGap c || c = '\n' || isFlowMark c
      || ['#', '&', '*', '!', '|', '>', '\'', '"', '%', '@', '\x60'].contains c)

/-- Reads a bare scalar.  `read` is what has been read and `gap` the blanks behind it, both in
reverse, and `breaks` the number of line ends among these.  Outside brackets, further lines must
begin at the column `low` or behind it. -/
def bareFrom (flow : Bool) (low : Nat) (anchors : List (String × Setting)) (read gap : List Char)
    (breaks line column : Nat) : List Char → Option (List Char × Cursor)
  | [] => some (read.reverse, ⟨[], line, column, breaks ≠ 0, anchors⟩)
  | c :: cs =>
    let stop := some (read.reverse, (⟨c :: cs, line, column, breaks ≠ 0, anchors⟩ : Cursor))
    if c = '\n' then bareFrom flow low anchors read gap (breaks + 1) (line + 1) 0 cs
    else if isGap c then
      if c = '\t' ∧ breaks ≠ 0 ∧ column < low ∧ !flow then none
      else
        bareFrom flow low anchors read (if breaks = 0 then c :: gap else gap) breaks line
          (column + 1) cs
    else if breaks ≠ 0 ∧ ((!flow ∧ column < low) ∨ (column = 0 ∧ isMarker (c :: cs))) then stop
    else if c = '#' ∧ (breaks ≠ 0 ∨ gap ≠ []) then stop
    else if c = ':' ∧ isOff cs then stop
    else if flow ∧ c = ':' ∧ (cs.head?.any fun d => isFlowMark d || d = '?') then none
    else if flow ∧ isFlowMark c then stop
    else bareFrom flow low anchors (c :: (fold gap breaks ++ read)) [] 0 line (column + 1) cs

/-- Reads a bare scalar. -/
def readBare? (flow : Bool) (low : Nat) (c : Cursor) : Option (List Char × Cursor) :=
  if startsBare flow c.rest then bareFrom flow low c.anchors [] [] 0 c.line c.column c.rest
  else none

/-! ## Quoted scalars -/

/-- The character of an escape of one letter. -/
def charOfEscape? : Char → Option Char
  | '0' => some '\x00'
  | 'a' => some '\x07'
  | 'b' => some '\x08'
  | 't' => some '\t'
  | '\t' => some '\t'
  | 'n' => some '\n'
  | 'v' => some '\x0b'
  | 'f' => some '\x0c'
  | 'r' => some '\r'
  | 'e' => some '\x1b'
  | ' ' => some ' '
  | '"' => some '"'
  | '/' => some '/'
  | '\\' => some '\\'
  | 'N' => some '\u0085'
  | '_' => some '\u00a0'
  | 'L' => some '\u2028'
  | 'P' => some '\u2029'
  | _ => none

/-- The number of digits of an escape by code point. -/
def escapeWidth? : Char → Option Nat
  | 'x' => some 2
  | 'u' => some 4
  | 'U' => some 8
  | _ => none

/-- The character with a code point in digits to the base sixteen. -/
def charOfHex? (cs : List Char) : Option Char :=
  (digitsFrom? 16 0 cs).bind fun n => if n.isValidChar then some (Char.ofNat n) else none

/-- Where reading stands between quotes. -/
structure Quote where
  /-- What has been read, in reverse. -/
  read : List Char
  /-- The blanks behind it, in reverse. -/
  gap : List Char
  /-- The number of line ends behind it. -/
  breaks : Nat
  /-- Whether the first of these was escaped, so that it does not count. -/
  joined : Bool
  line : Nat
  column : Nat

namespace Quote

/-- What has been read, in reverse, with what the blanks and line ends behind it stand for. -/
def settled (q : Quote) : List Char :=
  (if q.joined then List.replicate (q.breaks - 1) '\n' else fold q.gap q.breaks) ++ q.read

/-- Adds a character. -/
def add (q : Quote) (x : Char) (width : Nat) : Quote :=
  { q with
    read := x :: q.settled, gap := [], breaks := 0, joined := false, column := q.column + width }

/-- The text before the closing quote. -/
def close (q : Quote) : List Char := q.settled.reverse

/-- Passes a line end; `escaped` says that it is escaped. -/
def newline (q : Quote) (escaped : Bool) : Quote :=
  if escaped then
    { q with
      read := q.settled, gap := [], breaks := 1, joined := true, line := q.line + 1, column := 0 }
  else { q with breaks := q.breaks + 1, line := q.line + 1, column := 0 }

/-- Passes a blank. -/
def blank (q : Quote) (x : Char) : Quote :=
  { q with gap := if q.breaks = 0 then x :: q.gap else q.gap, column := q.column + 1 }

end Quote

/-- Reads a scalar in single quotes behind the opening one; a quote in it is written twice. -/
def singleFrom (anchors : List (String × Setting)) (q : Quote) :
    List Char → Option (List Char × Cursor)
  | [] => none
  | '\'' :: '\'' :: cs => singleFrom anchors (q.add '\'' 2) cs
  | '\'' :: cs => some (q.close, ⟨cs, q.line, q.column + 1, false, anchors⟩)
  | c :: cs =>
    if c = '\n' then singleFrom anchors (q.newline false) cs
    else if isGap c then singleFrom anchors (q.blank c) cs
    else if q.column = 0 ∧ isMarker (c :: cs) then none
    else singleFrom anchors (q.add c 1) cs

/-- Reads a scalar in double quotes behind the opening one; the fuel bounds its length. -/
def doubleFrom (anchors : List (String × Setting)) : Nat → Quote → List Char →
    Option (List Char × Cursor)
  | 0, _, _ => none
  | _ + 1, _, [] => none
  | fuel + 1, q, c :: cs =>
    if c = '"' then some (q.close, ⟨cs, q.line, q.column + 1, false, anchors⟩)
    else if c = '\\' then
      match cs with
      | [] => none
      | '\n' :: cs => doubleFrom anchors fuel (q.newline true) cs
      | d :: cs =>
        match escapeWidth? d with
        | some width =>
          if cs.length < width then none
          else
            (charOfHex? (cs.take width)).bind fun x =>
              doubleFrom anchors fuel (q.add x (width + 2)) (cs.drop width)
        | none => (charOfEscape? d).bind fun x => doubleFrom anchors fuel (q.add x 2) cs
    else if c = '\n' then doubleFrom anchors fuel (q.newline false) cs
    else if isGap c then doubleFrom anchors fuel (q.blank c) cs
    else if q.column = 0 ∧ isMarker (c :: cs) then none
    else doubleFrom anchors fuel (q.add c 1) cs

/-- Reads a scalar in quotes. -/
def readQuoted? (c : Cursor) : Option (List Char × Cursor) :=
  let q : Quote := ⟨[], [], 0, false, c.line, c.column + 1⟩
  match c.rest with
  | '\'' :: cs => singleFrom c.anchors q cs
  | '"' :: cs => doubleFrom c.anchors (cs.length + 1) q cs
  | _ => none

/-! ## Blocks of lines -/

/-- What becomes of the line ends at the end of a block. -/
inductive Chomping where
  | clip
  | strip
  | keep
  deriving DecidableEq, Inhabited

/-- The line at the beginning of some characters and what follows its end, if it has one. -/
def splitLine (cs : List Char) : List Char × Option (List Char) :=
  let line := cs.takeWhile (· ≠ '\n')
  match cs.dropWhile (· ≠ '\n') with
  | _ :: rest => (line, some rest)
  | [] => (line, none)

/-- The indicators of a block: a digit for its indentation, and what becomes of line ends. -/
def blockIndicators : List Char → Option Nat × Chomping × List Char
  | '+' :: d :: cs => if d.isDigit && d ≠ '0' then (some (d.toNat - 48), .keep, cs) else (none, .keep, d :: cs)
  | '-' :: d :: cs => if d.isDigit && d ≠ '0' then (some (d.toNat - 48), .strip, cs) else (none, .strip, d :: cs)
  | ['+'] => (none, .keep, [])
  | ['-'] => (none, .strip, [])
  | d :: cs =>
    if d.isDigit && d ≠ '0' then
      match cs with
      | '+' :: cs => (some (d.toNat - 48), .keep, cs)
      | '-' :: cs => (some (d.toNat - 48), .strip, cs)
      | cs => (some (d.toNat - 48), .clip, cs)
    else (none, .clip, d :: cs)
  | [] => (none, .clip, [])

/-- The number of blanks at the beginning of a line. -/
def indentOf (line : List Char) : Nat := (line.takeWhile (· = ' ')).length

/-- The lines of some characters, each with the characters behind its end, if it has one. -/
def linesWithRests : Nat → List Char → List (List Char × Option (List Char))
  | 0, _ => []
  | _ + 1, [] => []
  | fuel + 1, cs =>
    match splitLine cs with
    | (line, some rest) => (line, some rest) :: linesWithRests fuel rest
    | (line, none) => [(line, none)]

/-- The indentation of a block, which its first line that is not empty decides. -/
def detectIndent (most : Nat) : List (List Char × Option (List Char)) → Nat
  | [] => most
  | (line, _) :: lines =>
    let n := indentOf line
    if line.length = n then detectIndent (max most n) lines else max most n

/-- A block under construction: what has been read in reverse, whether a line end is due, whether
the last line began with a blank, and the number of empty lines since then. -/
structure Block where
  read : List Char
  due : Bool
  afterBlank : Bool
  empty : Nat

/-- Adds a line to a block; `ended` says that the line has an end. -/
def Block.add (b : Block) (folded : Bool) (line : List Char) (ended : Bool) : Block :=
  let blank := line.head?.any isGap
  let lead : List Char :=
    if b.due then
      if folded && !b.afterBlank && !blank then (if b.empty = 0 then [' '] else []) else ['\n']
    else []
  ⟨line.reverse ++ List.replicate b.empty '\n' ++ lead ++ b.read, ended, blank, 0⟩

/-- Reads the lines of a block; gives what remains of the text and the number of lines read. -/
def blockFrom (folded : Bool) (indent : Nat) (b : Block) (rest : List Char) (count : Nat) :
    List (List Char × Option (List Char)) → Block × List Char × Nat
  | [] => (b, rest, count)
  | (line, behind) :: lines =>
    let n := indentOf line
    if indent ≤ n ∧ line.length ≠ indent then
      blockFrom folded indent (b.add folded (line.drop indent) behind.isSome) (behind.getD [])
        (count + 1) lines
    else if line.length = n ∧ n ≤ indent then
      blockFrom folded indent { b with empty := b.empty + (if behind.isSome then 1 else 0) }
        (behind.getD []) (count + 1) lines
    else (b, rest, count)

/-- Reads a block of lines behind its first indicator. -/
def readBlock? (folded : Bool) (low : Nat) (c : Cursor) : Option (List Char × Cursor) :=
  let (increment, chomping, cs) := blockIndicators c.rest
  let (header, behind) := splitLine cs
  let remark := header.dropWhile isGap
  if !remark.isEmpty && remark.head? ≠ some '#' then none
  else
    let body := behind.getD []
    let lines := linesWithRests body.length body
    let indent := match increment with
      | some n => if low = 0 then n else low - 1 + n
      | none => max (max (detectIndent 0 lines) low) 1
    let (b, rest, count) := blockFrom folded indent ⟨[], false, false, 0⟩ body 0 lines
    let lineEnd : List Char := if b.due then ['\n'] else []
    let tail : List Char := match chomping with
      | .strip => []
      | .clip => lineEnd
      | .keep => List.replicate b.empty '\n' ++ lineEnd
    some ((tail ++ b.read).reverse, ⟨rest, c.line + 1 + count, 0, true, c.anchors⟩)

end RepairCorpus.Yaml
