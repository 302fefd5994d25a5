import RepairCorpus.Text.Digits

/-!
# Durations

A summary names the time a command took with just the detail a reader wants at that length: below
a second in milliseconds, below a minute in seconds with three places, and from there on in whole
minutes and seconds.
-/

namespace RepairCorpus.Text

/-- The text of a duration given in milliseconds. -/
def durationOf (milliseconds : Nat) : String :=
  let seconds := milliseconds / 1000
  if seconds = 0 then ofNat (milliseconds % 1000) ++ "ms"
  else if seconds < 60 then ofNat seconds ++ "." ++ padded 3 (milliseconds % 1000) ++ "s"
  else ofNat (seconds / 60) ++ "m " ++ ofNat (seconds % 60) ++ "s"

end RepairCorpus.Text
