import RepairCorpus.Json.Value

/-!
# JSON numbers

A number is read digit by digit into a significand of at most sixty-four bits.

* Without fraction and exponent, a number that fits is an exact integer: up to `2 ^ 64 - 1`, and
  down to `-2 ^ 63`.  A negative zero is not an integer; it is the double `-0.0`.
* Otherwise the number is a double.  Digits that no longer fit are dropped; of the integer part
  they still raise the exponent by one each.  The significand is rounded to a double once and
  scaled by one power of ten, in double arithmetic: a multiplication for a positive exponent, a
  division for a negative one.  Below `10 ^ (-308)` the division takes several steps.
* A number too large for a double has no value, though it is written like one; one too small is zero.

The steps are part of the rule, since rounding twice may differ from rounding the exact value.
-/

namespace RepairCorpus.Json.Number

/-! ## Significands -/

/-- The largest significand. -/
def maxSignificand : Nat := UInt64.size - 1

/-- Appends digits to a significand as long as they fit; the digits that do not are returned. -/
def extend (significand : Nat) : List Char → Nat × List Char
  | [] => (significand, [])
  | d :: ds =>
    let next := 10 * significand + (d.toNat - '0'.toNat)
    if next ≤ maxSignificand then extend next ds else (significand, d :: ds)

/-! ## Scaling -/

/-- The double nearest to a power of ten. -/
def powerOfTen (n : Nat) : Float := Float.ofScientific 1 false n

/-- Scales by a power of ten that is not negative; there is no result beyond the largest double. -/
def scaleUp (x : Float) (exponent : Nat) : Option Float :=
  if exponent ≤ 308 then
    let y := x * powerOfTen exponent
    if y.isInf then none else some y
  else if x == 0 then some x else none

/-- Divides by a power of ten, in steps of `10 ^ 308` while the power exceeds it. -/
def scaleDown (x : Float) (exponent : Nat) : Float :=
  if exponent ≤ 308 then x / powerOfTen exponent
  else if x == 0 then x
  else scaleDown (x / powerOfTen 308) (exponent - 308)
termination_by exponent

/-- The double for a sign, a significand and an exponent of ten. -/
def ofParts (negative : Bool) (significand : Nat) (exponent : Int) : Option Binary64 :=
  let x := significand.toUInt64.toFloat
  let scaled := if exponent < 0 then some (scaleDown x exponent.natAbs) else scaleUp x exponent.toNat
  scaled.map fun y => .ofFloat (if negative then -y else y)

/-! ## Reading -/

/-- The value of a run of digits. -/
def digitsValue (ds : List Char) : Nat :=
  ds.foldl (fun n d => 10 * n + (d.toNat - '0'.toNat)) 0

/-- Exponents beyond this bound are not added up: they stand for zero or for no number. -/
def maxExponent : Nat := UInt32.size / 2 - 1

/-- A double from its sign, significand and scale, and the characters behind its digits, which
are empty or an exponent. -/
def readExponent (negative : Bool) (significand : Nat) (scale : Int) : List Char → Option Binary64
  | [] => ofParts negative significand scale
  | e :: cs =>
    if e ≠ 'e' ∧ e ≠ 'E' then none
    else
      let (down, ds) := match cs with
        | '-' :: ds => (true, ds)
        | '+' :: ds => (false, ds)
        | ds => (false, ds)
      if ds.isEmpty || !ds.all Char.isDigit then none
      else
        let exponent := digitsValue ds
        if exponent ≤ maxExponent then
          ofParts negative significand (if down then scale - exponent else scale + exponent)
        else if !down && significand ≠ 0 then none
        else ofParts negative 0 0

/-- A number from its sign, the digits of its integer part and the characters behind them. -/
def readUnsigned (negative : Bool) (digits rest : List Char) : Option Number :=
  let (significand, dropped) := extend 0 digits
  let scale : Int := dropped.length
  match rest with
  | [] =>
    if dropped.isEmpty then
      if !negative then some (.integer significand)
      else if significand = 0 ∨ UInt64.size / 2 < significand then
        (ofParts true significand 0).map .binary
      else some (.integer (-significand))
    else (ofParts negative significand scale).map .binary
  | '.' :: cs =>
    let fraction := cs.takeWhile Char.isDigit
    let (extended, unused) := extend significand fraction
    if fraction.isEmpty then none
    else
      let kept : Int := fraction.length - unused.length
      (readExponent negative extended (scale - kept) (cs.dropWhile Char.isDigit)).map .binary
  | cs => (readExponent negative significand scale cs).map .binary

/-- The number written by a run of characters, if the run is one. -/
def ofChars? (cs : List Char) : Option Number :=
  let (negative, body) := match cs with
    | '-' :: body => (true, body)
    | body => (false, body)
  let digits := body.takeWhile Char.isDigit
  match digits with
  | [] => none
  | '0' :: _ :: _ => none
  | _ => readUnsigned negative digits (body.dropWhile Char.isDigit)

/-! ## Numerals -/

/-- Whether characters are the exponent of a number, which may be left out. -/
def isExponent : List Char → Bool
  | [] => true
  | e :: cs =>
    let ds := match cs with
      | '-' :: ds => ds
      | '+' :: ds => ds
      | ds => ds
    (e = 'e' || e = 'E') && !ds.isEmpty && ds.all Char.isDigit

/-- Whether a run of characters is written like a number, whatever its value. -/
def isNumeral (cs : List Char) : Bool :=
  let body := match cs with
    | '-' :: body => body
    | body => body
  let digits := body.takeWhile Char.isDigit
  let unpadded := match digits with
    | [] => false
    | '0' :: _ :: _ => false
    | _ => true
  let rest := match body.dropWhile Char.isDigit with
    | '.' :: cs => !(cs.takeWhile Char.isDigit).isEmpty && isExponent (cs.dropWhile Char.isDigit)
    | cs => isExponent cs
  unpadded && rest

end RepairCorpus.Json.Number
