import RV32IM.Elf

-- Reading ELF files. A file is refused by the first fault met: in its magic bytes, in the shape of
-- its header, in what the header declares, in the place of the program headers, and last in the
-- segments.

namespace RV32IM.Elf

inductive Unsupported
  | not32Bit
  | notLittleEndian
  | notExecutable
  | notRiscv
  | memoryBelowFile
  | pastEnd
  deriving DecidableEq

def Unsupported.message : Unsupported → String
  | not32Bit => "not a 32-bit image"
  | notLittleEndian => "not little-endian"
  | notExecutable => "not an executable"
  | notRiscv => "not a RISC-V image"
  | memoryBelowFile => "segment memory size below file size"
  | pastEnd => "segment runs past 4 GiB"

inductive ReadError
  | badMagic
  | malformed
  | unsupported (what : Unsupported)
  -- The data of a segment does not lie inside the file.
  | truncated (offset len : Nat)
  deriving DecidableEq

def ReadError.message : ReadError → String
  | badMagic => "not an ELF file"
  | malformed => "malformed ELF"
  | unsupported what => "unsupported ELF: " ++ what.message
  | truncated offset len =>
    "truncated ELF: need " ++ Numeral.decimal len ++ " bytes at offset 0x" ++ Numeral.hex offset

-- The number in `len` bytes from an offset on.
def number (file : List Byte) (offset len : Nat) : Nat :=
  LittleEndian.value ((file.drop offset).take len)

-- What the header of a file says, as far as it matters.
structure Header where
  entry   : Word
  phoff   : Nat
  phnum   : Nat

-- The size of the header by the class of the file.
def headerSizeOf? (fileClass : Nat) : Option Nat :=
  if fileClass = 1 then some 52 else if fileClass = 2 then some 64 else none

-- Checks the identification of a file and reads its header.
def readHeader (file : List Byte) : Except ReadError Header := do
  if !isElf file then throw .badMagic
  if file.length < 16 then throw .malformed
  let fileClass := number file 4 1
  let encoding := number file 5 1
  let some size := headerSizeOf? fileClass | throw .malformed
  if encoding ≠ 1 ∧ encoding ≠ 2 then throw .malformed
  if file.length < size then throw .malformed
  if fileClass ≠ 1 then throw (.unsupported .not32Bit)
  if encoding ≠ 1 then throw (.unsupported .notLittleEndian)
  if number file 16 2 ≠ executableType then throw (.unsupported .notExecutable)
  if number file 18 2 ≠ riscvMachine then throw (.unsupported .notRiscv)
  return ⟨BitVec.ofNat 32 (number file 24 4), number file 28 4, number file 44 2⟩

structure ProgramHeader where
  type   : Nat
  offset : Nat
  vaddr  : Nat
  filesz : Nat
  memsz  : Nat
  flags  : Nat

-- The program headers that bytes begin with.
def programHeaders : (count : Nat) → List Byte → List ProgramHeader
  | 0, _ => []
  | count + 1, bs =>
    ⟨number bs 0 4, number bs 4 4, number bs 8 4, number bs 16 4, number bs 20 4, number bs 24 4⟩ ::
      programHeaders count (bs.drop programHeaderSize)

def readSegment (file : List Byte) (ph : ProgramHeader) : Except ReadError Segment := do
  if ph.memsz < ph.filesz then throw (.unsupported .memoryBelowFile)
  if ph.vaddr + ph.memsz > addressLimit then throw (.unsupported .pastEnd)
  if ph.offset + ph.filesz > file.length then throw (.truncated ph.offset ph.filesz)
  return {
    vaddr := BitVec.ofNat 32 ph.vaddr
    data := (file.drop ph.offset).take ph.filesz
    memSize := ph.memsz
    access := ⟨BitVec.ofNat 8 ph.flags &&& Access.all.bits⟩ }

def read (file : List Byte) : Except ReadError Image := do
  let header ← readHeader file
  if header.phnum > file.length / programHeaderSize then throw .malformed
  if header.phnum ≠ 0 ∧ header.phoff + header.phnum * programHeaderSize > file.length then
    throw .malformed
  let headers := programHeaders header.phnum (file.drop header.phoff)
  let segments ← (headers.filter (·.type = loadType)).mapM (readSegment file)
  return ⟨header.entry, segments⟩

end RV32IM.Elf
