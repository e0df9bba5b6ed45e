import RV32IM.Host.Directory
import RV32IM.Host.Interface

-- A host: its standard streams and its files. A write to it is done in full or not at all, and what
-- it refuses leaves it as it was.

namespace RV32IM

-- An output stream. A write that would take it past its capacity fails.
structure Sink where
  written  : Array Byte := #[]
  capacity : Option Nat := none

namespace Sink

def room (s : Sink) (len : Nat) : Bool :=
  match s.capacity with
  | some n => s.written.size + len ≤ n
  | none => true

def write? (s : Sink) (bs : List Byte) : Option Sink :=
  if s.room bs.length then some { s with written := s.written ++ bs } else none

end Sink

structure Host where
  -- What reads of the standard input give, one chunk for each read or several reads; a read fails
  -- where there is none.
  stdin  : List (Option (List Byte))
  stdout : Sink
  stderr : Sink
  dir    : Directory

-- An open file and the position in it, which reads and writes share.
structure OpenFile where
  name     : String
  readable : Bool
  writable : Bool
  append   : Bool
  pos      : Nat
  deriving DecidableEq

inductive Handle
  | stdin
  | stdout
  | stderr
  | file (f : OpenFile)
  -- A directory, which can be opened but not read.
  | directory
  deriving DecidableEq

-- Puts bytes at a position of a file. A gap before them is filled with zeros.
def spliceAt (pos : Nat) (bs contents : List Byte) : List Byte :=
  contents.take pos ++ List.replicate (pos - contents.length) 0 ++ bs ++
    contents.drop (pos + bs.length)

namespace Host

-- One read of the standard input, of at most `n` bytes. It takes bytes of the first chunk only, and
-- leaves those that it has no room for.
def readStdin (h : Host) (n : Nat) : Option (List Byte) × Host :=
  if n = 0 then (some [], h)
  else match h.stdin with
  | [] => (some [], h)
  | none :: rest => (none, { h with stdin := rest })
  | some chunk :: rest =>
    let left := chunk.drop n
    (some (chunk.take n),
      { h with stdin := if left.isEmpty then rest else some left :: rest })

-- One read of at most `n` bytes. There is no result where the host refuses it.
def read (h : Host) (handle : Handle) (n : Nat) : Option (List Byte) × Handle × Host :=
  match handle with
  | .stdin =>
    let (bs, h) := h.readStdin n
    (bs, handle, h)
  | .file f =>
    if f.readable then
      let bs := (((h.dir.contents? f.name).getD []).drop f.pos).take n
      (some bs, .file { f with pos := f.pos + bs.length }, h)
    else (none, handle, h)
  | .stdout | .stderr | .directory => (none, handle, h)

-- Writes all of the bytes, unless the host refuses them.
def write? (h : Host) (handle : Handle) (bs : List Byte) : Option (Handle × Host) :=
  match handle with
  | .stdout => (h.stdout.write? bs).map fun stdout => (handle, { h with stdout })
  | .stderr => (h.stderr.write? bs).map fun stderr => (handle, { h with stderr })
  | .file f =>
    if f.writable then
      let old := (h.dir.contents? f.name).getD []
      let pos := if f.append then old.length else f.pos
      some (.file { f with pos := pos + bs.length },
        { h with dir := h.dir.put f.name (spliceAt pos bs old) })
    else none
  | .stdin | .directory => none

def openPath? (h : Host) (path : String) (m : OpenMode) : Option (Handle × Host) :=
  if !m.valid then none
  else match h.dir.resolve m.create path with
  | .error _ => none
  | .ok .directory => if m.write || m.append then none else some (.directory, h)
  | .ok (.file name) =>
    let handle := .file ⟨name, m.read, m.write || m.append, m.append, 0⟩
    match h.dir.contents? name with
    | some _ =>
      some (handle, if m.truncate then { h with dir := h.dir.put name [] } else h)
    | none => if m.create then some (handle, { h with dir := h.dir.put name [] }) else none

instance : HostInterface Handle Host where
  read := Host.read
  write h handle bs :=
    match h.write? handle bs with
    | some (handle, h) => (true, handle, h)
    | none => (false, handle, h)
  openPath h path m :=
    match h.openPath? path m with
    | some (handle, h) => (some handle, h)
    | none => (none, h)

end Host

end RV32IM
