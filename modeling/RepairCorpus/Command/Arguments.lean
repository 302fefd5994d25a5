import RepairCorpus.Command.Invocation
import RepairCorpus.Text.Digits

/-!
# Reading a command line

A command line has two levels: arguments in front of the name of a task, and arguments behind it.
On both levels an argument is an option, and each option may be given once.  An option is written
in full behind two dashes, or some of them as one letter behind one dash; letters may be put
together.  An option with a value takes the rest of its argument or the next argument, which must
not look like an option itself.

The options that hold for all tasks may be given on either level.  Given on both, the second level
has the last word.
-/

namespace RepairCorpus.Command

/-! ## Options -/

/-- What an option takes. -/
inductive Takes where
  | nothing
  /-- Any text. -/
  | text
  /-- A path, which is not empty. -/
  | path
  | number
  deriving DecidableEq, Inhabited

/-- An option. -/
structure Switch where
  name : String
  letter : Option Char
  takes : Takes
  /-- What is done at once when the option is met. -/
  request : Option Request
  deriving Inhabited

/-- Asks for help. -/
def helpSwitch : Switch := ⟨"help", some 'h', .nothing, some .help⟩

/-- Asks for the version. -/
def versionSwitch : Switch := ⟨"version", some 'V', .nothing, some .version⟩

/-- The options that hold for all tasks. -/
def commonSwitches : List Switch :=
  [⟨"verbose", some 'v', .nothing, none⟩, ⟨"quiet", some 'q', .nothing, none⟩,
    ⟨"config", some 'c', .path, none⟩, helpSwitch]

/-- The options in front of the task. -/
def topSwitches : List Switch := versionSwitch :: commonSwitches

/-- The options of tasks on a corpus. -/
def corpusSwitches : List Switch := [⟨"code", none, .path, none⟩, ⟨"max", none, .number, none⟩]

/-- The option for where sequences are written. -/
def sequenceSwitch : Switch := ⟨"seq", none, .path, none⟩

/-- The options of a task by its name. -/
def taskSwitches? : String → Option (List Switch)
  | "vocab" => some
    (corpusSwitches ++ [⟨"size", none, .number, none⟩, ⟨"output", some 'o', .path, none⟩])
  | "sequences" => some (corpusSwitches ++ [sequenceSwitch])
  | "abstract" => some (corpusSwitches ++ [sequenceSwitch, ⟨"vocab", none, .path, none⟩])
  | "mutants" => some (corpusSwitches ++ [sequenceSwitch])
  | "filter" => some
    [⟨"dir", none, .path, none⟩, ⟨"out", none, .path, none⟩, ⟨"max-length", none, .number, none⟩]
  | "xvalid" => some
    [⟨"dir", none, .path, none⟩, ⟨"prefix", none, .text, none⟩, ⟨"out", none, .path, none⟩,
      ⟨"folds", none, .number, none⟩]
  | _ => none

/-- The bound of numbers on the command line. -/
def numberBound : Nat := UInt64.size

/-- The number a text stands for: digits, with a plus sign or without. -/
def readNumber? (s : String) : Option Nat :=
  let digits := match s.toList with
    | '+' :: cs => cs
    | cs => cs
  (Text.ofDigits? digits).filter (· < numberBound)

/-- Whether an option takes a text as its value. -/
def Takes.admits (t : Takes) (value : String) : Bool :=
  match t with
  | .nothing => false
  | .text => true
  | .path => !value.isEmpty
  | .number => (readNumber? value).isSome

/-! ## One level -/

/-- The options given so far by their names, with their values; an option without a value has the
empty one. -/
abbrev Given := List (String × String)

/-- What has become of an argument. -/
inductive Step where
  | done (given : Given)
  /-- The next argument is the value of this option. -/
  | needs (given : Given) (switch : Switch)
  | stop (request : Request)
  deriving Inhabited

/-- Takes note of an option without a value. -/
def giveBare (given : Given) (s : Switch) : Step :=
  match s.request with
  | some r => .stop r
  | none => if (given.lookup s.name).isSome then .stop .misuse else .done ((s.name, "") :: given)

/-- Takes note of an option with a value. -/
def giveValue (given : Given) (s : Switch) (value : String) : Step :=
  if (given.lookup s.name).isSome || !s.takes.admits value then .stop .misuse
  else .done ((s.name, value) :: given)

/-- Reads an option written in full, behind its dashes. -/
def readName (switches : List Switch) (given : Given) (cs : List Char) : Step :=
  let name := String.ofList (cs.takeWhile (· ≠ '='))
  match switches.find? (fun s => s.name == name), cs.dropWhile (· ≠ '=') with
  | none, _ => .stop .misuse
  | some s, [] => if s.takes = .nothing then giveBare given s else .needs given s
  | some s, _ :: value =>
    if s.takes = .nothing then .stop .misuse else giveValue given s (String.ofList value)

/-- Reads options written as letters, behind their dash. -/
def readLetters (switches : List Switch) (given : Given) : List Char → Step
  | [] => .done given
  | c :: cs =>
    match switches.find? fun s => s.letter = some c with
    | none => .stop .misuse
    | some s =>
      if s.takes = .nothing then
        match giveBare given s with
        | .done given => readLetters switches given cs
        | step => step
      else
        match cs with
        | [] => .needs given s
        | '=' :: value => giveValue given s (String.ofList value)
        | value => giveValue given s (String.ofList value)

/-- Whether an argument looks like an option. -/
def looksLikeOption (argument : String) : Bool :=
  match argument.toList with
  | '-' :: _ :: _ => true
  | _ => false

/-- What a level of the command line holds. -/
inductive Level where
  | ended (given : Given)
  /-- Something that is no option, and what follows it. -/
  | word (given : Given) (word : String) (rest : List String)
  | stop (request : Request)
  deriving Inhabited

/-- Reads the options of a level up to something that is none. -/
def readLevel (switches : List Switch) (given : Given) : List String → Level
  | [] => .ended given
  | argument :: rest =>
    let step := match argument.toList with
      | '-' :: '-' :: [] => if rest.isEmpty then some (Step.done given) else some (.stop .misuse)
      | '-' :: '-' :: cs => some (readName switches given cs)
      | '-' :: c :: cs => some (readLetters switches given (c :: cs))
      | _ => none
    match step, rest with
    | none, rest => .word given argument rest
    | some (.done given), rest => readLevel switches given rest
    | some (.stop request), _ => .stop request
    | some (.needs _ _), [] => .stop .misuse
    | some (.needs given s), value :: rest =>
      if looksLikeOption value then .stop .misuse
      else
        match giveValue given s value with
        | .done given => readLevel switches given rest
        | _ => .stop .misuse

/-! ## Tasks -/

/-- The number given for an option, if any. -/
def numberOf (given : Given) (name : String) : Option Nat :=
  (given.lookup name).bind readNumber?

/-- The text given for an option, or a default. -/
def textOf (given : Given) (name default : String) : String := (given.lookup name).getD default

/-- Where sequences are written if nothing else is said. -/
def standardStart : String := "output/seq"

/-- Where a vocabulary is written if nothing else is said. -/
def standardVocabulary : String := "output/vocab.txt"

/-- The arguments of a task on a corpus, if all are there that have to be. -/
def corpusOf (given : Given) : Option CorpusArguments :=
  (given.lookup "code").map fun code => ⟨code, numberOf given "max"⟩

/-- The task with a name, if all arguments are there that have to be. -/
def taskOf (name : String) (given : Given) : Option Task :=
  match name with
  | "vocab" => (corpusOf given).map fun corpus =>
    .vocabulary corpus (numberOf given "size") (textOf given "output" standardVocabulary)
  | "sequences" => (corpusOf given).map fun corpus =>
    .sequences corpus (textOf given "seq" standardStart)
  | "abstract" => (corpusOf given).map fun corpus =>
    .abstract corpus (textOf given "seq" standardStart) (given.lookup "vocab")
  | "mutants" => (corpusOf given).map fun corpus =>
    .mutants corpus (textOf given "seq" standardStart)
  | "filter" => do
    let directory ← given.lookup "dir"
    let out ← given.lookup "out"
    return .filter directory out (numberOf given "max-length")
  | "xvalid" => do
    let directory ← given.lookup "dir"
    let out ← given.lookup "out"
    return .folds directory (textOf given "prefix" "seq") out (numberOf given "folds")
  | _ => none

/-- What holds for all tasks, from what is given in front of the task and behind it. -/
def commonOf (front behind : Given) : CommonArguments :=
  { verbose := (front.lookup "verbose").isSome || (behind.lookup "verbose").isSome
    quiet := (front.lookup "quiet").isSome || (behind.lookup "quiet").isSome
    config := (behind.lookup "config").or (front.lookup "config") }

/-- Reads the question for help on a task. -/
def readHelp : List String → Request
  | [] => .help
  | [name] => if name = "help" || (taskSwitches? name).isSome then .help else .misuse
  | _ => .misuse

/-- Reads a command line. -/
def Request.ofArguments (arguments : List String) : Request :=
  match readLevel topSwitches [] arguments with
  | .ended _ => .misuse
  | .stop request => request
  | .word front name rest =>
    if name = "help" then readHelp rest
    else
      match taskSwitches? name with
      | none => .misuse
      | some switches =>
        match readLevel (switches ++ commonSwitches) [] rest with
        | .word .. => .misuse
        | .stop request => request
        | .ended behind =>
          match taskOf name behind with
          | none => .misuse
          | some task => .run ⟨commonOf front behind, task⟩

end RepairCorpus.Command
