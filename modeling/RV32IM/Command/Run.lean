import RV32IM.Command.Options
import RV32IM.Config
import RV32IM.Elf.Read
import RV32IM.Guest
import RV32IM.Machine.Load
import RV32IM.Source.Assemble

-- Running a program, which is given as assembly text or as an ELF file.

namespace RV32IM.Command.Run

def specs : List OptionSpec :=
  [⟨"config", none, true⟩, ⟨"watchdog", some 'w', true⟩, ⟨"base", some 'b', true⟩]

structure Request where
  config   : Option String
  watchdog : Option Nat
  base     : Option Word
  input    : String

def Request.ofArgs (args : List String) : Attempt Request := do
  let a ← parse specs 1 args
  return {
    config := ← a.path "config"
    watchdog := ← a.natural "watchdog"
    base := ← a.word "base"
    input := ← pathArg (a.positionals.headD "") }

-- The configuration of a run. Options override what a file says.
def Request.settings (r : Request) (dir : Directory) : Attempt RunConfig := do
  let cfg ← match r.config with
    | none => pure {}
    | some path =>
      match RunConfig.ofText? (← readText dir path) with
      | some cfg => pure cfg
      | none => throw (.failed ("parsing " ++ path) (some "invalid configuration"))
  return {
    hart := { cfg.hart with watchdog := r.watchdog.getD cfg.hart.watchdog }
    link := { cfg.link with base := r.base.getD cfg.link.base } }

def diagnosticLines (path : String) (ds : Array Diagnostic) : String :=
  String.join (ds.toList.map fun d => path ++ ": " ++ d.message ++ "\n")

-- A machine for a request, and what is to be said of it before it runs.
def prepare (r : Request) (dir : Directory) : Attempt (String × Attempt Machine) := do
  let cfg ← r.settings dir
  let bytes ← readFile dir r.input
  if Elf.isElf bytes then
    let img ← orFail Elf.ReadError.message (Elf.read bytes)
    let m ← orFail MemoryError.message (Machine.ofElf img cfg.hart cfg.link.stackSize)
    return ("", .ok m)
  let chars ← orCause "source is not UTF-8" Utf8.Fault.message (Utf8.decode bytes)
  let o := Source.assemble (String.ofList chars) cfg.link.base
  let l ← orFail MemoryError.message (o.link cfg.link)
  let count := Numeral.decimal l.diagnostics.size
  return (diagnosticLines r.input l.diagnostics,
    if l.clean then .ok (.ofLinked l cfg.hart) else fail (count ++ " error(s), not running"))

-- A trap as a failure. A fault in memory has a cause.
def trapFailure (t : Trap) : Failure :=
  .failed t.message (match t with
    | .memory _ source => some source.message
    | _ => none)

-- The standard input as a program reads it: through a buffer that is filled anew once it is empty.
def chunks (size : Nat) (bs : List Byte) : List (Option (List Byte)) :=
  go bs.length bs
where
  go : (fuel : Nat) → List Byte → List (Option (List Byte))
    | 0, _ => []
    | fuel + 1, bs => if bs.isEmpty then [] else some (bs.take size) :: go fuel (bs.drop size)

def bufferSize : Nat := 8192

def guest (m : Machine) (dir : Directory) (stdin : List Byte) : Guest Handle Host :=
  ⟨m, .start ⟨chunks bufferSize stdin, {}, {}, dir⟩⟩

def execute (m : Machine) (dir : Directory) (stdin : List Byte) : Result :=
  let (outcome, g) := (guest m dir stdin).run
  let host := g.os.host
  let (status, said) := match outcome with
    | .ok o => (o.exitCode.toNat % 256, o.text ++ "\n")
    | .error t => ((trapFailure t).status, (trapFailure t).report)
  ⟨status, host.stdout.written.toList, host.stderr.written.toList ++ Utf8.ofString said, host.dir⟩

def run (args : List String) (dir : Directory) (stdin : List Byte) : Result :=
  match Request.ofArgs args >>= (prepare · dir) with
  | .error f => f.result dir
  | .ok (_, .ok m) => execute m dir stdin
  | .ok (said, .error f) => ⟨f.status, [], Utf8.ofString (said ++ f.report), dir⟩

-- The paths that the program of a command line asks to open.
def asked (args : List String) (dir : Directory) (stdin : List Byte) : List String :=
  match Request.ofArgs args >>= (prepare · dir) with
  | .ok (_, .ok m) => (guest m dir stdin).asked
  | _ => []

end RV32IM.Command.Run
