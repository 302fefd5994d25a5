import RepairCorpus.Command.Arguments
import RepairCorpus.Command.Run
import RepairCorpus.Text.Duration

/-!
# The command line

The files are those of the machine here, and what a run tells goes to the terminal.  Nothing is
decided: the arguments are read by `Command.Request.ofArguments`, and the run is
`Command.Invocation.execute` with the accesses of this module and the notations of this library.
-/

namespace RepairCorpus.Machine

open RepairCorpus.Files (Content Failure)

/-! ## Files -/

/-- The number by which the machine names an error with a file; it may come with a minus sign,
which says nothing. -/
def errorNumber? : IO.Error → Option Nat
  | .noFileOrDirectory _ n _ | .alreadyExists _ n _ | .inappropriateType _ n _ =>
    some n.toInt32.toInt.natAbs
  | _ => none

/-- The failure for an error of the machine. -/
def failureOf (e : IO.Error) : Failure :=
  match errorNumber? e with
  | some 2 => .missing
  | some 17 => .occupied
  | some 20 => .notDirectory
  | some 21 => .isDirectory
  | _ => .other (toString e)

/-- Makes an access; an error of the machine becomes a failure. -/
def access {α : Type} (act : IO α) : IO (Except Failure α) := do
  match ← act.toBaseIO with
  | .ok x => return .ok x
  | .error e => return .error (failureOf e)

/-- What a question about a path tells; there is no answer for a path that cannot be resolved. -/
def inspect {α : Type} (default : α) (act : IO α) : IO α := do
  match ← act.toBaseIO with
  | .ok x => return x
  | .error _ => return default

/-- The text of a file. -/
def readText (path : String) : IO (Except Failure String) := do
  match ← access (IO.FS.readBinFile path) with
  | .error failure => return .error failure
  | .ok bytes =>
    match (Content.ofBytes bytes.toList).text? with
    | some s => return .ok s
    | none => return .error .notText

/-- The names of the files directly in a directory. -/
def listFiles (path : String) : IO (List String) := do
  let place ← IO.FS.realPath path
  if ← place.isDir then
    let entries ← place.readDir
    let files ← entries.filterM fun entry => do
      match (← entry.path.symlinkMetadata).type with
      | .file => return true
      | _ => return false
    return files.toList.map fun entry => entry.fileName
  else return []

/-- Whether there is a file at a path. -/
def isFile (path : String) : IO Bool := do
  match (← (← IO.FS.realPath path).metadata).type with
  | .file => return true
  | _ => return false

/-- Whether there is a directory at a path. -/
def isDirectory (path : String) : IO Bool := do
  (← IO.FS.realPath path).isDir

/-- Makes directories along the pieces of a path, as far as they are missing.  What stands in the
way of a directory below it is for the machine to say. -/
def makeAlong (above : List (List Char)) : List (List Char) → IO (Except Failure Unit)
  | [] => return .ok ()
  | piece :: rest => do
    let reached := above ++ [piece]
    let path := String.ofList (Files.unpieces reached)
    if path.isEmpty then makeAlong reached rest
    else
      match ← access (IO.FS.createDir path) with
      | .ok () => makeAlong reached rest
      | .error .occupied =>
        if rest.isEmpty && !(← inspect false (isDirectory path)) then return .error .occupied
        else makeAlong reached rest
      | .error failure => return .error failure

instance storage : Storage IO where
  read := readText
  create path := access (IO.FS.withFile path .write fun _ => return)
  overwrite path s := access (IO.FS.withFile path .readWrite fun file => file.write s.toUTF8)
  makeDirectories path := makeAlong [] (Files.trimmed (Files.pieces path.toList))
  has path := inspect false do
    discard (IO.FS.realPath path)
    return true
  hasFile path := inspect false (isFile path)
  list path := access (listFiles path)

/-! ## Running -/

/-- How the program is called. -/
def usage : String :=
  "usage: repair-seq (vocab | sequences | abstract | mutants | filter | xvalid) [options]"

/-- Runs an invocation and tells of it. -/
def perform (i : Command.Invocation) : IO UInt32 := do
  let start ← IO.monoMsNow
  let report ← i.execute .bundled
  let elapsed := Text.durationOf ((← IO.monoMsNow) - start)
  for notice in report.notices do
    IO.println (notice.line elapsed)
  match report.trouble with
  | none => return 0
  | some trouble =>
    IO.eprintln ("❌ " ++ trouble.account)
    return 1

end RepairCorpus.Machine

/-- Does what the command line asks for. -/
def main (arguments : List String) : IO UInt32 := do
  match RepairCorpus.Command.Request.ofArguments arguments with
  | .run invocation => RepairCorpus.Machine.perform invocation
  | .version =>
    IO.println RepairCorpus.Command.versionLine
    return 0
  | .help =>
    IO.println RepairCorpus.Machine.usage
    return 0
  | .misuse =>
    IO.eprintln RepairCorpus.Machine.usage
    return 2
