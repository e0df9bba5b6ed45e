import RV32IM.Host.Directory
import RV32IM.Text.Numeral

-- What command lines come to: the end of a command, and how a failure is reported.

namespace RV32IM.Command

structure Result where
  status : Nat
  stdout : List Byte
  stderr : List Byte
  dir    : Directory

inductive Failure
  | usage
  | failed (message : String) (cause : Option String)

namespace Failure

def status : Failure → Nat
  | usage => 2
  | failed .. => 1

def report : Failure → String
  | usage => "usage"
  | failed message none => "Error: " ++ message ++ "\n"
  | failed message (some cause) =>
    "Error: " ++ message ++ "\n\nCaused by:\n    " ++ cause ++ "\n"

-- The end of a command that did nothing but fail.
def result (f : Failure) (dir : Directory) : Result :=
  ⟨f.status, [], Utf8.ofString f.report, dir⟩

end Failure

abbrev Attempt := Except Failure

def fail {α : Type} (message : String) : Attempt α :=
  .error (.failed message none)

-- The value of an attempt whose error is the message of a failure.
def orFail {ε α : Type} (message : ε → String) : Except ε α → Attempt α
  | .ok a => .ok a
  | .error e => .error (.failed (message e) none)

-- The value of an attempt whose error is the cause of a failure.
def orCause {ε α : Type} (what : String) (message : ε → String) : Except ε α → Attempt α
  | .ok a => .ok a
  | .error e => .error (.failed what (some (message e)))

def readFile (dir : Directory) (path : String) : Attempt (List Byte) :=
  orCause ("reading " ++ path) PathError.message (dir.read path)

-- The text of a file, which must be UTF-8.
def readText (dir : Directory) (path : String) : Attempt String := do
  let bytes ← readFile dir path
  let chars ← orCause ("reading " ++ path) (fun _ => "stream did not contain valid UTF-8")
    (Utf8.decode bytes)
  return String.ofList chars

end RV32IM.Command
