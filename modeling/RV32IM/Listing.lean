import RV32IM.Elf.Read
import RV32IM.Instr.Text
import RV32IM.Text.Blank

-- Listings of the instructions in a file: the image of the file in memory, and a sweep over a range
-- of addresses, four bytes at a time.

namespace RV32IM.Listing

inductive Kind
  | raw
  | elf
  deriving DecidableEq

def Kind.text : Kind → String
  | raw => "raw"
  | elf => "elf"

structure Segment where
  name   : String
  base   : Word
  size   : Nat
  bytes  : Array Byte
  access : Access
  kind   : Kind

structure Image where
  entry    : Option Word
  segments : List Segment

inductive LoadError
  | elf (e : Elf.ReadError)
  | skipTooLarge
  | lenTooLarge
  deriving DecidableEq

def LoadError.message : LoadError → String
  | elf e => e.message
  | skipTooLarge => "--skip exceeds file size"
  | lenTooLarge => "--len exceeds remaining file size after skip"

namespace Image

-- The image of raw bytes at an address, after some bytes that are skipped and up to a length.
def ofRaw (file : List Byte) (base : Word) (skip : Nat) (len : Option Nat) :
    Except LoadError Image := do
  if skip > file.length then throw .skipTooLarge
  let rest := file.drop skip
  let bytes ← match len with
    | none => pure rest
    | some n => if n > rest.length then throw .lenTooLarge else pure (rest.take n)
  return ⟨none, [⟨"segment0", base, bytes.length, bytes.toArray, .readExecute, .raw⟩]⟩

def ofElf (img : Elf.Image) : Image :=
  ⟨some img.entry, img.segments.mapIdx fun i s =>
    ⟨"load" ++ Numeral.decimal i, s.vaddr, s.memSize, s.data.toArray, s.access, .elf⟩⟩

-- The image of a file. Where it is loaded from and to is of use only if it is no ELF file.
def ofFile (file : List Byte) (base : Word) (skip : Nat) (len : Option Nat) :
    Except LoadError Image :=
  if Elf.isElf file then
    match Elf.read file with
    | .ok img => .ok (ofElf img)
    | .error e => .error (.elf e)
  else ofRaw file base skip len

end Image

-- Whether an address is among the bytes of a segment. A segment whose end wraps around to a lower
-- address holds none.
def Segment.holds (s : Segment) (addr : Word) : Bool :=
  s.base ≤ addr && addr < s.base + BitVec.ofNat 32 s.bytes.size

namespace Image

def byte? (img : Image) (addr : Word) : Option Byte :=
  (img.segments.find? (·.holds addr)).bind fun s => s.bytes[addr.toNat - s.base.toNat]?

-- The four bytes from an address on, which may lie in several segments.
def bytes? (img : Image) (addr : Word) : Option (List Byte) := do
  return [← img.byte? addr, ← img.byte? (addr + 1), ← img.byte? (addr + 2), ← img.byte? (addr + 3)]

def word? (img : Image) (addr : Word) : Option Word :=
  (img.bytes? addr).map Word.ofBytes

variable {img : Image} {addr : Word} {b : Byte} {bs : List Byte}

-- The last address of all is never found: it would have to lie before the end of a segment, which
-- is an address itself.
theorem toNat_add_one_lt (h : img.byte? addr = some b) : addr.toNat + 1 < addressLimit := by
  have ⟨s, hs, _⟩ := Option.bind_eq_some_iff.mp h
  have hholds := List.find?_some hs
  simp only [Segment.holds, Bool.and_eq_true, decide_eq_true_eq, BitVec.lt_def] at hholds
  have hend := (s.base + BitVec.ofNat 32 s.bytes.size).isLt
  rw [addressLimit_eq]
  omega

theorem bytes?_eq_some_iff :
    img.bytes? addr = some bs ↔
      ∃ b₀ b₁ b₂ b₃, img.byte? addr = some b₀ ∧ img.byte? (addr + 1) = some b₁ ∧
        img.byte? (addr + 2) = some b₂ ∧ img.byte? (addr + 3) = some b₃ ∧
        [b₀, b₁, b₂, b₃] = bs := by
  simp [bytes?, Option.bind_eq_some_iff]

-- So four bytes that are found end before memory does.
theorem toNat_add_four (h : img.bytes? addr = some bs) :
    addr.toNat + 4 < addressLimit ∧ (addr + 4).toNat = addr.toNat + 4 := by
  obtain ⟨_, _, _, _, h₀, h₁, h₂, h₃, _⟩ := bytes?_eq_some_iff.mp h
  have h₀ := toNat_add_one_lt h₀
  have h₁ := toNat_add_one_lt h₁
  have h₂ := toNat_add_one_lt h₂
  have h₃ := toNat_add_one_lt h₃
  simp only [BitVec.toNat_add, BitVec.reduceToNat, addressLimit_eq] at *
  omega

end Image

structure Line where
  addr  : Word
  bytes : Option String
  text  : String
  deriving DecidableEq

def bytesText (bs : List Byte) : String :=
  " ".intercalate (bs.map fun b => Numeral.hexPadded 2 b.toNat)

-- The lines of a range, from its first address on. The sweep ends early where the bytes end.
def lines (img : Image) (first stop : Word) (showBytes : Bool) : List Line :=
  if first < stop then
    match h : img.bytes? first with
    | none => [⟨first, none, "<oob>"⟩]
    | some bs =>
      ⟨first, if showBytes then some (bytesText bs) else none, (Word.ofBytes bs).instrText⟩ ::
        if first + 4 = 0 then [] else lines img (first + 4) stop showBytes
  else []
termination_by addressLimit - first.toNat
decreasing_by
  have ⟨hlt, hnext⟩ := Image.toNat_add_four h
  omega

-- Reads an address, in hexadecimal after `0x` or else in decimal.
def address? (cs : List Char) : Except Numeral.Fault Word :=
  match Text.trim cs with
  | '0' :: 'x' :: ds | '0' :: 'X' :: ds =>
    (Numeral.natural 16 (valueCount 32) ds).map (BitVec.ofNat 32)
  | ds => (Numeral.natural 10 (valueCount 32) ds).map (BitVec.ofNat 32)

end RV32IM.Listing
