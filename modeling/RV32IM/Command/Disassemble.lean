import RV32IM.Command.Options
import RV32IM.Listing.Text

-- Disassembling a file: a table of its segments, or a listing of a range of addresses.

namespace RV32IM.Command.Disassemble

inductive OutputFormat
  | text
  | json
  deriving DecidableEq

inductive Task
  | sections
  | range (first stop : String) (showBytes : Bool) (out : Option String)

structure Request where
  base   : Word
  skip   : Nat
  len    : Option Nat
  format : OutputFormat
  input  : String
  task   : Task

def specs : List OptionSpec :=
  [⟨"base", none, true⟩, ⟨"skip", none, true⟩, ⟨"len", none, true⟩, ⟨"format", none, true⟩]

def rangeSpecs : List OptionSpec :=
  [⟨"show-bytes", none, false⟩, ⟨"out", none, true⟩]

-- Reads the name of a task and its arguments.
def Task.ofArgs : String → List String → Attempt Task
  | "sections", args => (parse [] 0 args).map fun _ => .sections
  | "range", args => do
    let a ← parse rangeSpecs 2 args
    match a.positionals with
    | [first, stop] => return .range first stop (a.isSet "show-bytes") (a.value? "out")
    | _ => throw .usage
  | _, _ => throw .usage

-- Reads a command line. The name of a task is one wherever it stands, so a file of that name has to
-- be given in another way; after a double dash no task can be named any more.
def Request.ofArgs (args : List String) : Attempt Request := do
  let some (a, rest) := scan specs 2 {} args | throw .usage
  match a.positionals with
  | [input, task] =>
    if ["sections", "range"].contains input then throw .usage
    return {
      base := (← a.word "base").getD 0
      skip := (← a.natural "skip").getD 0
      len := ← a.natural "len"
      format := ← a.choice "format" [("text", .text), ("json", .json)] .text
      input
      task := ← Task.ofArgs task rest }
  | _ => throw .usage

def load (r : Request) (dir : Directory) : Attempt Listing.Image := do
  let file ← readFile dir r.input
  match Listing.Image.ofFile file r.base r.skip r.len with
  | .ok img => return img
  | .error (.elf e) => throw (.failed ("parsing " ++ r.input) (some e.message))
  | .error e => fail e.message

-- The listing of a range, whose ends are texts.
def listing (img : Listing.Image) (format : OutputFormat) (first stop : String)
    (showBytes : Bool) : Attempt String := do
  let first ← orFail Numeral.Fault.message (Listing.address? first.toList)
  let stop ← orFail Numeral.Fault.message (Listing.address? stop.toList)
  if stop < first then fail "end must be >= start"
  else
    let lines := Listing.lines img first stop showBytes
    return match format with
      | .text => Listing.linesText lines
      | .json => Listing.linesJson lines

def perform (r : Request) (dir : Directory) : Attempt (String × Directory) := do
  let img ← load r dir
  match r.task with
  | .sections =>
    return (match r.format with
      | .text => img.sectionsText
      | .json => img.sectionsJson, dir)
  | .range first stop showBytes out =>
    let text ← listing img r.format first stop showBytes
    match out with
    | none => return (text, dir)
    | some path =>
      return ("", ← orFail PathError.message (dir.write path (Utf8.ofString text)))

def run (args : List String) (dir : Directory) : Result :=
  match Request.ofArgs args >>= (perform · dir) with
  | .ok (text, dir) => ⟨0, Utf8.ofString text, [], dir⟩
  | .error f => f.result dir

end RV32IM.Command.Disassemble
