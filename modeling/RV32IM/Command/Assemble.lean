import RV32IM.Command.Options
import RV32IM.Elf
import RV32IM.Link
import RV32IM.Source.Assemble

-- Assembling a file, to an ELF file or to the bare bytes of the image.

namespace RV32IM.Command.Assemble

inductive Emit
  | elf
  | raw
  deriving DecidableEq

def specs : List OptionSpec :=
  [⟨"input", some 'i', true⟩, ⟨"output", some 'o', true⟩, ⟨"start", none, true⟩,
    ⟨"entry", none, true⟩, ⟨"emit", none, true⟩]

structure Request where
  input  : String
  output : String
  start  : Word
  entry  : String
  emit   : Emit

def Request.ofArgs (args : List String) : Attempt Request := do
  let a ← parse specs 0 args
  let some input ← a.path "input" | throw .usage
  let some output ← a.path "output" | throw .usage
  return {
    input, output
    start := (← a.word "start").getD 0
    entry := (a.value? "entry").getD "_start"
    emit := ← a.choice "emit" [("elf", .elf), ("raw", .raw)] .elf }

-- Links the source of a request. Nothing but its image is mapped.
def link (r : Request) (dir : Directory) : Attempt Linked := do
  let source ← readText dir r.input
  let cfg : LinkConfig := { base := r.start, stackSize := 0, entrySymbol := r.entry }
  orFail MemoryError.message ((Source.assemble source cfg.base).link cfg)

def Emit.bytes (e : Emit) (l : Linked) : List Byte :=
  match e with
  | raw => l.image
  | elf => (Elf.Image.single l.image l.base l.entry .all).write

def write (r : Request) (l : Linked) (dir : Directory) : Attempt Directory :=
  orCause ("writing " ++ r.output) PathError.message (dir.write r.output (r.emit.bytes l))

def run (args : List String) (dir : Directory) : Result :=
  match (do let r ← Request.ofArgs args; return (r, ← link r dir)) with
  | .error f => Failure.result f dir
  | .ok (r, l) =>
    if l.clean then
      match write r l dir with
      | .ok dir => ⟨0, [], [], dir⟩
      | .error f => f.result dir
    else
      let lines := l.diagnostics.toList.map fun d => r.input ++ ": " ++ d.message ++ "\n"
      let f := Failure.failed (Numeral.decimal l.diagnostics.size ++ " error(s)") none
      ⟨f.status, [], Utf8.ofString (String.join lines ++ f.report), dir⟩

end RV32IM.Command.Assemble
