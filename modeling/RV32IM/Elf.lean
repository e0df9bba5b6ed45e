import RV32IM.Memory.AddressSpace

-- Executable images and their ELF files: 32-bit little-endian files for RISC-V with one program
-- header for each segment and no sections.

namespace RV32IM

namespace Elf

-- A span of memory that an image fills.
structure Segment where
  vaddr   : Word
  -- The bytes at the start of the span; the rest of it is zero.
  data    : List Byte
  memSize : Nat
  access  : Access
  deriving DecidableEq

structure Image where
  entry    : Word
  segments : List Segment
  deriving DecidableEq

def headerSize : Nat := 52

def programHeaderSize : Nat := 32

-- The type of program headers that are loaded.
def loadType : Nat := 1

def executableType : Nat := 2

def riscvMachine : Nat := 243

def magic : List Byte := [0x7F, 0x45, 0x4C, 0x46]

def isElf (file : List Byte) : Bool :=
  magic.isPrefixOf file

end Elf

namespace Elf.Image

def single (bytes : List Byte) (base entry : Word) (access : Access) : Image :=
  ⟨entry, [⟨base, bytes, bytes.length, access⟩]⟩

-- The first offset from `cursor` on that lies in its page as `vaddr` does.
def alignedOffset (cursor : Nat) (vaddr : Word) : Nat :=
  let offset := cursor - cursor % pageSize + vaddr.toNat % pageSize
  if offset < cursor then offset + pageSize else offset

-- Segments with the offsets of their data in the file.
def placed (cursor : Nat) : List Segment → List (Nat × Segment)
  | [] => []
  | s :: ss =>
    let offset := alignedOffset cursor s.vaddr
    (offset, s) :: placed (offset + s.data.length) ss

def half (n : Nat) : List Byte :=
  LittleEndian.encode 2 n

def full (n : Nat) : List Byte :=
  LittleEndian.encode 4 n

def identBytes : List Byte :=
  magic ++ [1, 1, 1] ++ List.replicate 9 0

def headerBytes (img : Image) : List Byte :=
  identBytes ++ half executableType ++ half riscvMachine ++ full 1 ++ full img.entry.toNat ++
    full headerSize ++ full 0 ++ full 0 ++ half headerSize ++ half programHeaderSize ++
    half img.segments.length ++ half 0 ++ half 0 ++ half 0

def programHeaderBytes : Nat × Segment → List Byte
  | (offset, s) =>
    full loadType ++ full offset ++ full s.vaddr.toNat ++ full s.vaddr.toNat ++
      full s.data.length ++ full (max s.memSize s.data.length) ++ full s.access.bits.toNat ++
      full pageSize

-- The data of segments, from a position of the file on, with zeros between them.
def dataBytes (pos : Nat) : List (Nat × Segment) → List Byte
  | [] => []
  | (offset, s) :: rest =>
    List.replicate (offset - pos) 0 ++ (s.data ++ dataBytes (offset + s.data.length) rest)

def write (img : Image) : List Byte :=
  let headers := headerSize + img.segments.length * programHeaderSize
  let segments := placed headers img.segments
  img.headerBytes ++ (segments.flatMap programHeaderBytes ++ dataBytes headers segments)

-- The page at which the region of a segment begins.
def regionBase (s : Segment) : Word :=
  BitVec.ofNat 32 (s.vaddr.toNat / pageSize * pageSize)

-- Maps one segment. Its region reaches from a page boundary to the end of the segment, and holds at
-- least one byte.
def loadSegment (space : AddressSpace) (s : Segment) : Except MemoryError AddressSpace := do
  let len := max (max s.memSize s.data.length) 1 + s.vaddr.toNat % pageSize
  if len ≥ addressLimit then throw (.exhausted s.memSize)
  let space ← space.allocate (regionBase s) len s.access
  space.poke s.vaddr s.data

-- Maps segments one after the other. Those before the first that cannot be mapped stay.
def loadSegments (space : AddressSpace) : List Segment → Except MemoryError Unit × AddressSpace
  | [] => (.ok (), space)
  | s :: ss =>
    match loadSegment space s with
    | .ok space => loadSegments space ss
    | .error e => (.error e, space)

def load (img : Image) (space : AddressSpace) : Except MemoryError Unit × AddressSpace :=
  loadSegments space img.segments

end Elf.Image

end RV32IM
