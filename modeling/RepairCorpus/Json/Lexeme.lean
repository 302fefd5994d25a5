import RepairCorpus.Json.Number
import RepairCorpus.Text.Digits

/-!
# Lexemes of a JSON text

The first half of reading: a text becomes the sequence of its punctuation marks, strings, numbers
and literal names.  The scanner looks at one character at a time and carries a `Mode`, so it is a
fold over the text; it needs no bound and no look-ahead.

Strings follow RFC 8259 strictly: control characters must be escaped.  The grammar also lets a string
escape one half of a surrogate pair without the other, and a number be too large for a double.  Such
lexemes stand for no value, but the text goes on behind them, so that they have lexemes of their own.

At the first character that cannot continue a JSON text the scanner writes one `fault` and stops.
-/

namespace RepairCorpus.Json

/-- The smallest parts of a JSON text. -/
inductive Lexeme where
  | openBrace
  | closeBrace
  | openBracket
  | closeBracket
  | colon
  | comma
  | text (value : String)
  /-- A string with a half of a surrogate pair that stands alone. -/
  | unpairedText
  /-- A value written without delimiters: a number or one of the three names. -/
  | scalar (value : Json)
  /-- A number beyond the largest double. -/
  | hugeNumber
  /-- Nothing behind this place can be read. -/
  | fault
  deriving Inhabited

/-! ## Modes -/

/-- What the scanner is in the middle of.  Characters already read are kept in reverse; inside a string
there are none to keep once half of a surrogate pair has been left alone. -/
inductive Mode where
  | idle
  | text (read : Option (List Char))
  /-- A backslash has been read inside a string. -/
  | escape (read : Option (List Char))
  /-- Inside `\uXXXX`: the first half of a pair if there is one, how many of the four digits are
  still to come, and the value of the others. -/
  | unicode (read : Option (List Char)) (high : Option Nat) (remaining value : Nat)
  /-- The first half of a pair has been read; a backslash should follow. -/
  | pair (read : Option (List Char)) (high : Nat)
  /-- The backslash before the second half of a pair has been read; a `u` should follow. -/
  | pairEscape (read : Option (List Char)) (high : Nat)
  /-- Inside a number or a name. -/
  | run (read : List Char)
  | stopped
  deriving Inhabited

/-- The character a one-letter escape stands for. -/
def escaped? : Char → Option Char
  | '"' => some '"'
  | '\\' => some '\\'
  | '/' => some '/'
  | 'b' => some '\x08'
  | 'f' => some '\x0c'
  | 'n' => some '\n'
  | 'r' => some '\r'
  | 't' => some '\t'
  | _ => none

/-- The character of a surrogate pair. -/
def pairChar (high low : Nat) : Char :=
  Char.ofNat (0x10000 + (high - 0xD800) * 0x400 + (low - 0xDC00))

/-- Whether a character may stand in a number or a name. -/
def isRunChar (c : Char) : Bool :=
  c.isAlphanum || c = '-' || c = '+' || c = '.'

/-- The lexeme of a finished run. -/
def Lexeme.ofRun (cs : List Char) : Lexeme :=
  match String.ofList cs with
  | "null" => .scalar .null
  | "true" => .scalar (.bool true)
  | "false" => .scalar (.bool false)
  | _ =>
    match Number.ofChars? cs with
    | some n => .scalar (.number n)
    | none => if Number.isNumeral cs then .hugeNumber else .fault

/-- The lexeme of a finished string. -/
def Lexeme.ofText : Option (List Char) → Lexeme
  | some read => .text (String.ofList read.reverse)
  | none => .unpairedText

/-! ## Scanning -/

/-- The scanner's state: the lexemes found so far, the last one first, and the mode. -/
structure Scan where
  found : List Lexeme
  mode : Mode
  deriving Inhabited

namespace Scan

/-- Stops with a fault. -/
def fail (s : Scan) : Scan := ⟨.fault :: s.found, .stopped⟩

/-- Finishes a run; a run that is neither number nor name is a fault. -/
def endRun (found : List Lexeme) (read : List Char) : Scan :=
  match Lexeme.ofRun read.reverse with
  | .fault => ⟨.fault :: found, .stopped⟩
  | l => ⟨l :: found, .idle⟩

/-- Reads a character between lexemes. -/
def idleStep (s : Scan) (c : Char) : Scan :=
  match c with
  | '{' => ⟨.openBrace :: s.found, .idle⟩
  | '}' => ⟨.closeBrace :: s.found, .idle⟩
  | '[' => ⟨.openBracket :: s.found, .idle⟩
  | ']' => ⟨.closeBracket :: s.found, .idle⟩
  | ':' => ⟨.colon :: s.found, .idle⟩
  | ',' => ⟨.comma :: s.found, .idle⟩
  | '"' => ⟨s.found, .text (some [])⟩
  | ' ' | '\t' | '\n' | '\r' => ⟨s.found, .idle⟩
  | _ => if isRunChar c then ⟨s.found, .run [c]⟩ else s.fail

/-- Reads a character inside a string. -/
def textStep (s : Scan) (read : Option (List Char)) (c : Char) : Scan :=
  if c = '"' then ⟨Lexeme.ofText read :: s.found, .idle⟩
  else if c = '\\' then ⟨s.found, .escape read⟩
  else if c.toNat < 0x20 then s.fail
  else ⟨s.found, .text (read.map (c :: ·))⟩

/-- Reads the character behind a backslash. -/
def escapeStep (s : Scan) (read : Option (List Char)) (c : Char) : Scan :=
  if c = 'u' then ⟨s.found, .unicode read none 4 0⟩
  else
    match escaped? c with
    | some d => ⟨s.found, .text (read.map (d :: ·))⟩
    | none => s.fail

/-- The mode behind the last digit of `\uXXXX`: a plain character, or a half of a pair, which leaves no
text if it stands alone. -/
def endUnicode (read : Option (List Char)) (high : Option Nat) (unit : Nat) : Mode :=
  match high with
  | some h =>
    .text (if 0xDC00 ≤ unit ∧ unit ≤ 0xDFFF then read.map (pairChar h unit :: ·) else none)
  | none =>
    if 0xD800 ≤ unit ∧ unit ≤ 0xDBFF then .pair read unit
    else if 0xDC00 ≤ unit ∧ unit ≤ 0xDFFF then .text none
    else .text (read.map (Char.ofNat unit :: ·))

/-- Reads one character. -/
def step (s : Scan) (c : Char) : Scan :=
  match s.mode with
  | .idle => s.idleStep c
  | .text read => s.textStep read c
  | .escape read => s.escapeStep read c
  | .unicode read high remaining value =>
    match Text.hexValue? c with
    | none => s.fail
    | some d =>
      if remaining ≤ 1 then ⟨s.found, endUnicode read high (16 * value + d)⟩
      else ⟨s.found, .unicode read high (remaining - 1) (16 * value + d)⟩
  | .pair read high => if c = '\\' then ⟨s.found, .pairEscape read high⟩ else s.textStep none c
  | .pairEscape read high =>
    if c = 'u' then ⟨s.found, .unicode read (some high) 4 0⟩ else s.escapeStep none c
  | .run read =>
    if isRunChar c then ⟨s.found, .run (c :: read)⟩
    else
      let ended := endRun s.found read
      match ended.mode with
      | .stopped => ended
      | _ => ended.idleStep c
  | .stopped => s

/-- Reads the end of the text: a string left open is a fault. -/
def finish (s : Scan) : List Lexeme :=
  match s.mode with
  | .idle | .stopped => s.found.reverse
  | .run read => (endRun s.found read).found.reverse
  | _ => s.fail.found.reverse

end Scan

/-- The lexemes of a text, up to and including the first fault. -/
def lexemes (text : String) : List Lexeme :=
  (text.toList.foldl Scan.step ⟨[], .idle⟩).finish

end RepairCorpus.Json
