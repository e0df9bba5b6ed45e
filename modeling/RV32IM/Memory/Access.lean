import RV32IM.Word
import RV32IM.Text.Numeral

-- Permissions of memory, and the ways in which memory refuses a request.

namespace RV32IM

-- A set of permissions. Bits without a meaning are kept but grant nothing.
structure Access where
  bits : BitVec 8
  deriving DecidableEq

namespace Access

def none : Access := ⟨0⟩
def execute : Access := ⟨1⟩
def write : Access := ⟨2⟩
def read : Access := ⟨4⟩
def readWrite : Access := ⟨6⟩
def readExecute : Access := ⟨5⟩
def all : Access := ⟨7⟩

def allows (granted required : Access) : Bool :=
  granted.bits &&& required.bits == required.bits

-- The three permissions as letters, with a dash for one that is missing.
def text (a : Access) : String :=
  String.ofList [
    if a.allows read then 'r' else '-',
    if a.allows write then 'w' else '-',
    if a.allows execute then 'x' else '-']

@[simp]
theorem allows_none (a : Access) : a.allows none = true := by
  simp [allows, none]

end Access

inductive MemoryError
  -- No single region holds all the bytes asked for.
  | unmapped (addr : Word) (len : Nat)
  | denied (addr : Word) (required granted : Access)
  -- A region would overlap another or leave the address space.
  | overlap (base : Word) (len : Nat)
  | misaligned (base : Word)
  | zeroLength
  -- No place is left for a region.
  | exhausted (len : Nat)
  deriving DecidableEq

def MemoryError.message : MemoryError → String
  | unmapped addr len =>
    "no region covers " ++ Numeral.decimal len ++ " byte(s) at " ++ Numeral.address addr
  | denied addr required granted =>
    "access " ++ required.text ++ " denied at " ++ Numeral.address addr ++ " (region is " ++
      granted.text ++ ")"
  | overlap base len =>
    "region [" ++ Numeral.address base ++ ", +0x" ++ Numeral.hex len ++
      ") overlaps an existing region"
  | misaligned base => "region base " ++ Numeral.address base ++ " is not page aligned"
  | zeroLength => "zero-length region"
  | exhausted len => "no gap of 0x" ++ Numeral.hex len ++ " bytes left in the address space"

end RV32IM
