import RepairCorpus.Config.Setting
import RepairCorpus.Json.Number
import RepairCorpus.Text.Digits

/-!
# Unquoted scalars in TOML

An unquoted scalar is a truth value, a whole number, a fraction, or a date.  Settings have no use
for fractions and dates, but a file that has some is still to be read, and one that has something
else is not.

Whole numbers have a sign and decimal digits, or a letter for the base and digits of that base.
Single underscores may stand between digits.  They must fit into a signed machine word.

A date counts as a table with one row, whose name is kept out of the way of ordinary names.
-/

namespace RepairCorpus.Toml

open RepairCorpus.Config (Setting Scalar)

/-! ## Whole numbers -/

/-- Reads digits behind a number; `mustFollow` says that a digit must come next. -/
def digitsFrom (base n : Nat) (mustFollow : Bool) : List Char → Option Nat
  | [] => if mustFollow then none else some n
  | c :: cs =>
    if c = '_' then if mustFollow then none else digitsFrom base n true cs
    else (Text.digitIn? base c).bind fun d => digitsFrom base (base * n + d) false cs

/-- The value of digits, which may have single underscores between them. -/
def digits? (base : Nat) (cs : List Char) : Option Nat := digitsFrom base 0 true cs

/-- The value of decimal digits without a superfluous zero in front. -/
def decimal? : List Char → Option Nat
  | '0' :: _ :: _ => none
  | cs => digits? 10 cs

/-- A sign, if there is one, and what follows. -/
def splitSign : List Char → Bool × List Char
  | '+' :: cs => (false, cs)
  | '-' :: cs => (true, cs)
  | cs => (false, cs)

/-- The value of a whole number. -/
def integer? : List Char → Option Int
  | '0' :: 'x' :: cs => (digits? 16 cs).map Int.ofNat
  | '0' :: 'o' :: cs => (digits? 8 cs).map Int.ofNat
  | '0' :: 'b' :: cs => (digits? 2 cs).map Int.ofNat
  | cs =>
    let (negative, cs) := splitSign cs
    (decimal? cs).map fun n => if negative then -n else n

/-- Whether a number fits into a signed machine word. -/
def fits (n : Int) : Bool :=
  let bound : Int := (UInt64.size / 2 : Nat)
  n < bound && -bound ≤ n

/-! ## Fractions -/

/-- Whether characters are an exponent, its letter included. -/
def isExponent : List Char → Bool
  | c :: cs => (c = 'e' || c = 'E') && (digits? 10 (splitSign cs).2).isSome
  | [] => false

/-- Whether characters are the places of a fraction, with an exponent or without. -/
def isPlaces (cs : List Char) : Bool :=
  let places := cs.takeWhile fun c => c.isDigit || c = '_'
  let rest := cs.dropWhile fun c => c.isDigit || c = '_'
  (digits? 10 places).isSome && (rest.isEmpty || isExponent rest)

/-- Whether characters are a fraction. -/
def isFraction (cs : List Char) : Bool :=
  let cs := (splitSign cs).2
  let whole := cs.takeWhile fun c => c.isDigit || c = '_'
  match cs.dropWhile fun c => c.isDigit || c = '_' with
  | '.' :: rest => (decimal? whole).isSome && isPlaces rest
  | rest =>
    if whole.isEmpty then rest = ['i', 'n', 'f'] || rest = ['n', 'a', 'n']
    else (decimal? whole).isSome && isExponent rest

/-- Whether the amount of a fraction is that of a double.  Only one without a minus sign has to be;
beyond all doubles, one with a minus sign counts as negative infinity. -/
def isBounded (cs : List Char) : Bool :=
  let (negative, amount) := splitSign cs
  negative || !(amount.head?.any Char.isDigit)
    || (Json.Number.ofChars? (amount.filter (· ≠ '_'))).isSome

/-! ## Dates -/

/-- The value of two digits, if it lies in a range. -/
def twoDigits? (low high : Nat) (a b : Char) : Option Nat :=
  (digits? 10 [a, b]).filter fun n => low ≤ n && n ≤ high

/-- The number of days of a month. -/
def daysIn (year month : Nat) : Nat :=
  if month = 2 then
    if year % 4 = 0 && (year % 100 ≠ 0 || year % 400 = 0) then 29 else 28
  else if [4, 6, 9, 11].contains month then 30
  else 31

/-- What follows a day at the beginning of some characters. -/
def afterDay? : List Char → Option (List Char)
  | y1 :: y2 :: y3 :: y4 :: '-' :: m1 :: m2 :: '-' :: d1 :: d2 :: cs => do
    if [y1, y2, y3, y4, m1, m2, d1, d2].contains '_' then failure
    let year ← digits? 10 [y1, y2, y3, y4]
    let month ← twoDigits? 1 12 m1 m2
    let _ ← twoDigits? 1 (daysIn year month) d1 d2
    return cs
  | _ => none

/-- What follows a time of day. -/
def afterTime? : List Char → Option (List Char)
  | h1 :: h2 :: ':' :: m1 :: m2 :: ':' :: s1 :: s2 :: cs => do
    if [h1, h2, m1, m2, s1, s2].contains '_' then failure
    let _ ← twoDigits? 0 23 h1 h2
    let _ ← twoDigits? 0 59 m1 m2
    let _ ← twoDigits? 0 60 s1 s2
    match cs with
    | '.' :: d :: cs => if d.isDigit then return cs.dropWhile Char.isDigit else failure
    | cs => return cs
  | _ => none

/-- Whether characters are the distance of a zone, or nothing. -/
def isZone : List Char → Bool
  | [] => true
  | [c] => c = 'Z' || c = 'z'
  | [sign, h1, h2, ':', m1, m2] =>
    (sign = '+' || sign = '-') && (twoDigits? 0 23 h1 h2).isSome && (twoDigits? 0 59 m1 m2).isSome
  | _ => false

/-- Whether characters are a time of day without a zone. -/
def isTime (cs : List Char) : Bool := afterTime? cs = some []

/-- Whether characters are a day without a time. -/
def isDay (cs : List Char) : Bool := afterDay? cs = some []

/-- Whether characters are a date: a day, a time, or both with or without a zone. -/
def isDate (cs : List Char) : Bool :=
  isTime cs ||
    match afterDay? cs with
    | none => false
    | some [] => true
    | some (c :: cs) =>
      (c = 'T' || c = 't' || c = ' ') &&
        match afterTime? cs with
        | some zone => isZone zone
        | none => false

/-- The name of the only row of a date. -/
def dateRow : String := "$__toml_private_datetime"

/-! ## Scalars -/

/-- The setting of an unquoted scalar. -/
def unquoted? (cs : List Char) : Option Setting :=
  if cs = "true".toList then some (.scalar (.ofBool true))
  else if cs = "false".toList then some (.scalar (.ofBool false))
  else
    match integer? cs with
    | some n => if fits n then some (.scalar (.ofInt n)) else none
    | none =>
      if isFraction cs then if isBounded cs then some (.scalar .unusable) else none
      else if isDate cs then
        some (.table [(dateRow, .scalar (.ofText (String.ofList cs)))])
      else none

/-- Whether a character can be part of an unquoted scalar. -/
def isScalarChar (c : Char) : Bool :=
  c.isAlphanum || c = '_' || c = '+' || c = '-' || c = '.' || c = ':'

/-- The unquoted scalar at the beginning of some characters, with what follows.  Behind a day
there may be a blank and a time, which belong to it. -/
def readUnquoted? (cs : List Char) : Option (Setting × List Char) :=
  let token := cs.takeWhile isScalarChar
  let rest := cs.dropWhile isScalarChar
  let longer :=
    match rest with
    | ' ' :: more => token ++ ' ' :: more.takeWhile isScalarChar
    | _ => token
  if isDay token && isDate longer then
    (unquoted? longer).map fun s => (s, cs.drop longer.length)
  else (unquoted? token).map fun s => (s, rest)

end RepairCorpus.Toml
