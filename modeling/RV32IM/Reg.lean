import RV32IM.Word
import RV32IM.Text.Blank
import RV32IM.Text.Numeral

-- Integer registers, their names, and the register file.

namespace RV32IM

structure Reg where
  index : BitVec 5
  deriving DecidableEq

namespace Reg

def zero : Reg := ⟨0⟩
def ra : Reg := ⟨1⟩
def sp : Reg := ⟨2⟩
def a0 : Reg := ⟨10⟩
def a1 : Reg := ⟨11⟩
def a2 : Reg := ⟨12⟩
def a7 : Reg := ⟨17⟩

-- The register that the low five bits of a word name.
def ofWord (w : Word) : Reg :=
  ⟨w.setWidth 5⟩

def toWord (r : Reg) : Word :=
  r.index.setWidth 32

@[simp]
theorem ofWord_toWord (r : Reg) : ofWord r.toWord = r := by
  cases r
  simp [ofWord, toWord]

def all : List Reg :=
  (List.range 32).map fun i => ⟨BitVec.ofNat 5 i⟩

-- The names of the calling convention, by index.
def abiNames : Vector String 32 := #v[
  "zero", "ra", "sp", "gp", "tp", "t0", "t1", "t2",
  "s0", "s1", "a0", "a1", "a2", "a3", "a4", "a5",
  "a6", "a7", "s2", "s3", "s4", "s5", "s6", "s7",
  "s8", "s9", "s10", "s11", "t3", "t4", "t5", "t6"]

def abiName (r : Reg) : String :=
  abiNames.get r.index.toFin

-- The register as instructions print it.
def text (r : Reg) : String :=
  "x" ++ Numeral.decimal r.index.toNat

-- The register that `x` and a number name; the number may follow a plus sign.
def ofNumber? : List Char → Option Reg
  | 'x' :: cs =>
    match Numeral.natural 10 256 cs with
    | .ok n => if n < 32 then some ⟨BitVec.ofNat 5 n⟩ else none
    | .error _ => none
  | _ => none

-- The register of a name of the calling convention, where `fp` is another name for `s0`.
def ofAbiName? (name : List Char) : Option Reg :=
  if name = ['f', 'p'] then some ⟨8⟩ else all.find? fun r => r.abiName.toList = name

-- Reads a register in any letter case, with white space around it.
def ofText? (cs : List Char) : Option Reg :=
  let name := Text.lower (Text.trim cs)
  ofNumber? name <|> ofAbiName? name

end Reg

-- What the registers hold. Register zero holds zero whatever is written to it.
structure RegFile where
  cells : Vector Word 32
  deriving DecidableEq

namespace RegFile

def empty : RegFile := ⟨Vector.replicate 32 0⟩

def get (f : RegFile) (r : Reg) : Word :=
  if r = .zero then 0
  else
    have := r.index.isLt
    f.cells[r.index.toNat]

def set (f : RegFile) (r : Reg) (w : Word) : RegFile :=
  if r = .zero then f else ⟨f.cells.set r.index.toNat w r.index.isLt⟩

@[simp]
theorem get_zero (f : RegFile) : f.get .zero = 0 := by
  simp [get]

theorem get_set_self {f : RegFile} {r : Reg} (h : r ≠ .zero) (w : Word) :
    (f.set r w).get r = w := by
  simp [get, set, h]

theorem get_set_of_ne {f : RegFile} {r s : Reg} (h : s ≠ r) (w : Word) :
    (f.set r w).get s = f.get s := by
  have hne : r.index.toNat ≠ s.index.toNat := by
    intro e
    apply h
    cases r
    cases s
    simpa [BitVec.toNat_inj] using e.symm
  unfold set
  split
  · rfl
  · unfold get
    split
    · rfl
    · simp [hne]

end RegFile

end RV32IM
