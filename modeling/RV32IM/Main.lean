import RV32IM.Command.Assemble
import RV32IM.Command.Disassemble
import RV32IM.Command.Run

-- The command line. The first argument is the name of a command. Commands work on files of the
-- current directory, which are read before and written after.

namespace RV32IM.Main

def readStored (path : String) : IO (Option (List Byte)) := do
  try
    return some ((← IO.FS.readBinFile path).toList.map UInt8.toBitVec)
  catch _ =>
    return none

def toByteArray (bs : List Byte) : ByteArray :=
  ⟨(bs.map UInt8.ofBitVec).toArray⟩

-- Adds the files at some paths, as far as there are any.
def addFiles (dir : Directory) (paths : List String) : IO Directory :=
  paths.foldlM (fun dir path => do
    match dir.resolve false path with
    | .ok (.file name) =>
      if (dir.contents? name).isSome then return dir
      match ← readStored name with
      | some bs => return dir.put name bs
      | none => return dir
    | _ => return dir) dir

-- Writes the files that a command has made or changed, prints what it has to say, and ends with its
-- status.
def finish (before : Directory) (r : Command.Result) : IO UInt32 := do
  for (name, bs) in r.dir.files do
    if before.contents? name ≠ some bs then
      IO.FS.writeBinFile name (toByteArray bs)
  (← IO.getStdout).write (toByteArray r.stdout)
  (← IO.getStderr).write (toByteArray r.stderr)
  return r.status.toUInt32

-- Runs a program. Which files it opens shows only as it runs, so their paths are found by a run of
-- their own, again and again until no file is missing.
def run (args : List String) : IO UInt32 := do
  let input ← (← IO.getStdin).readBinToEnd
  let stdin := input.toList.map UInt8.toBitVec
  let mut dir ← addFiles .empty args
  let mut count := 0
  while count ≠ dir.files.length do
    count := dir.files.length
    dir ← addFiles dir (Command.Run.asked args dir stdin)
  finish dir (Command.Run.run args dir stdin)

end RV32IM.Main

open RV32IM in
def main (args : List String) : IO UInt32 := do
  match args with
  | "run" :: args => Main.run args
  | "asm" :: args =>
    let dir ← Main.addFiles .empty args
    Main.finish dir (Command.Assemble.run args dir)
  | "disasm" :: args =>
    let dir ← Main.addFiles .empty args
    Main.finish dir (Command.Disassemble.run args dir)
  | _ =>
    (← IO.getStderr).putStrLn "usage: (run | asm | disasm) ARGUMENTS"
    return 2
