import RV32IM.Word

-- What system calls ask of the host of a program, whatever that host is.

namespace RV32IM

structure OpenMode where
  read     : Bool
  write    : Bool
  append   : Bool
  create   : Bool
  truncate : Bool
  deriving DecidableEq

namespace OpenMode

-- The mode of a set of flags, if all of them are known. Without any flag a file is read, and to
-- truncate it is to write it.
def ofFlags? (flags : Word) : Option OpenMode :=
  if flags < 32 then
    some {
      read := flags = 0 || flags.getLsbD 0
      write := flags.getLsbD 1 || flags.getLsbD 3
      append := flags.getLsbD 4
      create := flags.getLsbD 2
      truncate := flags.getLsbD 3 }
  else none

-- Whether the parts of a mode go together: something is done with the file, only a file to be
-- written is made or truncated, and one to be appended to is not truncated.
def valid (m : OpenMode) : Bool :=
  (m.read || m.write || m.append) && (!(m.create || m.truncate) || m.write || m.append) &&
    !(m.append && m.truncate)

end OpenMode

-- A host of state `σ` with handles of type `η`. A request may change the handle and the state, even
-- if the host refuses it.
class HostInterface (η σ : Type) where
  -- One read of at most so many bytes. There is no result where the host refuses it.
  read     : σ → η → Nat → Option (List Byte) × η × σ
  -- Writes bytes. The result is whether all of them were written.
  write    : σ → η → List Byte → Bool × η × σ
  openPath : σ → String → OpenMode → Option η × σ

end RV32IM
