import RepairCorpus.Json.Document

/-!
# Excerpts of JSON documents

A reader that wants some members of a text passes over the others.  A value that is passed over only has
to follow the grammar: its strings may hold half of a surrogate pair, its numbers may be of any size, and
its arrays and objects nest as deep as they like.  In the document it is null, so that nothing is known of
it but where it stands.

Which members are passed over is decided by their keys and by what is open around their objects.  The keys
themselves are read like any other string.
-/

namespace RepairCorpus.Json

/-- What stands for a lexeme in a value that is passed over: any string and any number will do. -/
def Lexeme.relaxed : Lexeme → Lexeme
  | .unpairedText => .text ""
  | .hugeNumber => .scalar .null
  | l => l

/-- What the reader of an excerpt is doing. -/
inductive Excerpt where
  | reading (r : Reading)
  /-- Passing over the value of a member, whose object is open inside `frames`. -/
  | passing (value : Reading) (members : List (String × Json)) (key : String) (frames : List Frame)
  deriving Inhabited

namespace Excerpt

/-- Where the reader is, with nothing read of a value that it is passing over. -/
def place : Excerpt → Reading
  | .reading r => r
  | .passing _ members key frames => .value (.member members key :: frames) false

/-- Begins to pass over the value of a member if it is to be passed over. -/
def enter (passes : List Frame → String → Bool) : Reading → Excerpt
  | .value (.member members key :: frames) false =>
    if passes frames key then .passing (.value [] false) members key frames
    else .reading (.value (.member members key :: frames) false)
  | r => .reading r

/-- Goes on behind a value that has been passed over, or gives up where it went wrong. -/
def leave (value : Reading) (members : List (String × Json)) (key : String) (frames : List Frame) :
    Excerpt :=
  match value with
  | .done d =>
    if d.closed then .reading (Json.place .null (.member members key :: frames))
    else .reading (Reading.value (.member members key :: frames) false).fail
  | value => .passing value members key frames

/-- Reads one lexeme. -/
def step (limit : Option Nat) (passes : List Frame → String → Bool) : Excerpt → Lexeme → Excerpt
  | .reading r, l => enter passes (r.step limit l)
  | .passing value members key frames, l => leave (value.step none l.relaxed) members key frames

end Excerpt

/-- Reads a text and passes over some members.  What is left nests at most `limit` deep, if there is a
limit. -/
def readExcerpt (limit : Option Nat) (passes : List Frame → String → Bool) (text : String) : Document :=
  ((lexemes text).foldl (Excerpt.step limit passes) (.reading (.value [] false))).place.abandon

end RepairCorpus.Json
