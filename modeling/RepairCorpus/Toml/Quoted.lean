import RepairCorpus.Text.Digits

/-!
# Quoted texts in TOML

TOML quotes a text in four ways.  In the basic forms a backslash begins an escape, in the literal
forms nothing is escaped.  Either form may span lines, between triple quotes, and then a line feed
directly behind the opening quotes does not count.

A text is written in the first form that can hold it without an escape, in the order basic,
literal, basic over lines, literal over lines.  If none can, it is written with escapes, over
lines if it has any.  A tab needs no escape, but gets one wherever there are escapes.

* `Form.opening`, `Form.closing`: the delimiters.
* `write`: a text in quotes.
* `read?`: the text at the beginning of some characters, with the characters behind it.
-/

namespace RepairCorpus.Toml

/-! ## Forms -/

/-- The ways of quoting. -/
inductive Form where
  | basic
  | literal
  | basicLines
  | literalLines
  deriving DecidableEq, Inhabited

namespace Form

/-- Whether a backslash begins an escape. -/
def escapes : Form → Bool
  | .basic | .basicLines => true
  | .literal | .literalLines => false

/-- Whether line feeds may stand between the quotes. -/
def spansLines : Form → Bool
  | .basicLines | .literalLines => true
  | .basic | .literal => false

/-- The quotation mark of a form. -/
def mark : Form → Char
  | .basic | .basicLines => '"'
  | .literal | .literalLines => '\''

/-- The marks at either end. -/
def delimiter (f : Form) : List Char := List.replicate (if f.spansLines then 3 else 1) f.mark

end Form

/-- Whether a character can only be written as an escape. -/
def isControl (c : Char) : Bool := (c.toNat ≤ 0x1F && c ≠ '\t' && c ≠ '\n') || c.toNat = 0x7F

/-- Whether a character may stand for itself between quotes of a form, quotation marks and
backslashes apart. -/
def Form.admits (f : Form) (c : Char) : Bool := !isControl c && (f.spansLines || c ≠ '\n')

/-! ## Writing -/

/-- The length of the longest run of a character, `run` being the length of the current one and
`most` the greatest length so far. -/
def longestRun (c : Char) (run most : Nat) : List Char → Nat
  | [] => most
  | d :: ds => if d = c then longestRun c (run + 1) (max most (run + 1)) ds else longestRun c 0 most ds

/-- Whether a form holds a text without escapes. -/
def Form.holds (f : Form) (cs : List Char) : Bool :=
  cs.all f.admits && (!f.escapes || !cs.contains '\\')
    && longestRun f.mark 0 0 cs ≤ (if f.spansLines then 2 else 0)

/-- The form in which a text is written. -/
def formFor (cs : List Char) : Form :=
  match [Form.basic, .literal, .basicLines, .literalLines].find? fun f => f.holds cs with
  | some f => f
  | none => if cs.contains '\n' then .basicLines else .basic

/-- The digit of a number below sixteen. -/
def hexDigit (n : Nat) : Char := "0123456789ABCDEF".toList.getD n '0'

/-- The escape of a character by its code point, in four digits. -/
def unicodeEscape (c : Char) : List Char :=
  let n := c.toNat
  ['\\', 'u', hexDigit (n / 4096 % 16), hexDigit (n / 256 % 16), hexDigit (n / 16 % 16),
    hexDigit (n % 16)]

/-- A character between the quotes of a form with escapes, quotation marks apart. -/
def escaped (f : Form) (c : Char) : List Char :=
  match c with
  | '\x08' => ['\\', 'b']
  | '\t' => ['\\', 't']
  | '\n' => if f.spansLines then ['\n'] else ['\\', 'n']
  | '\x0c' => ['\\', 'f']
  | '\r' => ['\\', 'r']
  | '\\' => ['\\', '\\']
  | c => if isControl c then unicodeEscape c else [c]

/-- The text between the quotes of a form with escapes.  Over lines, two quotation marks may stand
side by side, and `run` counts those written last; any further one is escaped. -/
def body (f : Form) (run : Nat) : List Char → List Char
  | [] => []
  | c :: cs =>
    if c = '"' then
      if run < (if f.spansLines then 2 else 0) then '"' :: body f (run + 1) cs
      else '\\' :: '"' :: body f 0 cs
    else escaped f c ++ body f 0 cs

/-- A text between the quotes of a form. -/
def writeAs (f : Form) (cs : List Char) : List Char :=
  f.delimiter ++ (if f.spansLines && cs.contains '\n' then ['\n'] else [])
    ++ (if f.escapes then body f 0 cs else cs) ++ f.delimiter

/-- A text in quotes. -/
def write (s : String) : String := String.ofList (writeAs (formFor s.toList) s.toList)

/-! ## Reading -/

/-- The value of digits to the base sixteen, behind a number. -/
def hexFrom (n : Nat) : List Char → Option Nat
  | [] => some n
  | c :: cs => (Text.hexValue? c).bind fun d => hexFrom (16 * n + d) cs

/-- The character with a code point in digits to the base sixteen. -/
def charOfHex? (cs : List Char) : Option Char :=
  (hexFrom 0 cs).bind fun n => if n.isValidChar then some (Char.ofNat n) else none

/-- The character of an escape of one letter. -/
def charOfEscape? : Char → Option Char
  | 'b' => some '\x08'
  | 't' => some '\t'
  | 'n' => some '\n'
  | 'f' => some '\x0c'
  | 'r' => some '\r'
  | '"' => some '"'
  | '\\' => some '\\'
  | _ => none

/-- Where reading stands between quotes. -/
inductive Place where
  | inside
  /-- Behind a backslash and blanks, where only a line feed may follow. -/
  | brokenLine
  /-- Behind such a line feed, where blanks and line feeds are passed over. -/
  | nextLine
  deriving DecidableEq, Inhabited

/-- Adds a character to a text that has been read. -/
def prepend (c : Char) (r : Option (List Char × List Char)) : Option (List Char × List Char) :=
  r.map fun x => (c :: x.1, x.2)

/-- The text up to the closing mark of a form on one line, with what follows. -/
def readLine (f : Form) : List Char → Option (List Char × List Char)
  | [] => none
  | '\\' :: 'u' :: a :: b :: c :: d :: cs =>
    if f.escapes then (charOfHex? [a, b, c, d]).bind fun x => prepend x (readLine f cs)
    else prepend '\\' (readLine f ('u' :: a :: b :: c :: d :: cs))
  | '\\' :: 'U' :: a :: b :: c :: d :: e :: g :: h :: i :: cs =>
    if f.escapes then (charOfHex? [a, b, c, d, e, g, h, i]).bind fun x => prepend x (readLine f cs)
    else prepend '\\' (readLine f ('U' :: a :: b :: c :: d :: e :: g :: h :: i :: cs))
  | '\\' :: c :: cs =>
    if f.escapes then (charOfEscape? c).bind fun x => prepend x (readLine f cs)
    else prepend '\\' (readLine f (c :: cs))
  | c :: cs =>
    if c = f.mark then some ([], cs)
    else if f.admits c && (c ≠ '\\' || !f.escapes) then prepend c (readLine f cs)
    else none

/-- The text up to the closing marks of a form over lines, with what follows.  Up to two marks
directly before the closing ones belong to the text. -/
def readLines (f : Form) (place : Place) : List Char → Option (List Char × List Char)
  | [] => none
  | c :: cs =>
    match place with
    | .brokenLine =>
      if c = ' ' ∨ c = '\t' then readLines f .brokenLine cs
      else if c = '\n' then readLines f .nextLine cs
      else none
    | _ =>
      if place = .nextLine ∧ (c = ' ' ∨ c = '\t' ∨ c = '\n') then readLines f .nextLine cs
      else if c = f.mark then
        match cs with
        | d :: e :: rest =>
          if d = f.mark ∧ e = f.mark then
            match rest with
            | x :: y :: rest' =>
              if x = f.mark then
                if y = f.mark then some ([f.mark, f.mark], rest')
                else some ([f.mark], y :: rest')
              else some ([], rest)
            | [x] => if x = f.mark then some ([f.mark], []) else some ([], [x])
            | [] => some ([], [])
          else prepend c (readLines f .inside (d :: e :: rest))
        | cs => prepend c (readLines f .inside cs)
      else if c = '\\' ∧ f.escapes then
        match cs with
        | 'u' :: w :: x :: y :: z :: rest =>
          (charOfHex? [w, x, y, z]).bind fun a => prepend a (readLines f .inside rest)
        | 'U' :: s :: t :: u :: v :: w :: x :: y :: z :: rest =>
          (charOfHex? [s, t, u, v, w, x, y, z]).bind fun a => prepend a (readLines f .inside rest)
        | d :: rest =>
          if d = ' ' ∨ d = '\t' then readLines f .brokenLine rest
          else if d = '\n' then readLines f .nextLine rest
          else (charOfEscape? d).bind fun a => prepend a (readLines f .inside rest)
        | [] => none
      else if f.admits c then prepend c (readLines f .inside cs)
      else none
  termination_by cs => cs.length

/-- Drops a line feed at the beginning. -/
def dropLineFeed : List Char → List Char
  | '\n' :: cs => cs
  | cs => cs

/-- The text in quotes at the beginning of some characters, with what follows; `lines` says
whether it may span lines. -/
def read? (lines : Bool) : List Char → Option (String × List Char)
  | '"' :: '"' :: '"' :: cs =>
    if lines then (readLines .basicLines .inside (dropLineFeed cs)).map fun x => (String.ofList x.1, x.2)
    else some ("", '"' :: cs)
  | '\'' :: '\'' :: '\'' :: cs =>
    if lines then (readLines .literalLines .inside (dropLineFeed cs)).map fun x => (String.ofList x.1, x.2)
    else some ("", '\'' :: cs)
  | '"' :: cs => (readLine .basic cs).map fun x => (String.ofList x.1, x.2)
  | '\'' :: cs => (readLine .literal cs).map fun x => (String.ofList x.1, x.2)
  | _ => none

end RepairCorpus.Toml
