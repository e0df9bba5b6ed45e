import RV32IM.Layout
import RV32IM.Op
import RV32IM.Reg

-- Instructions and their encoding. An instruction carries every operand an operation may have, and
-- those its format lacks are zero.

namespace RV32IM

structure Instr where
  op  : Op
  rd  : Reg
  rs1 : Reg
  rs2 : Reg
  -- The immediate as execution uses it: sign extended, and in place for `lui` and `auipc`.
  imm : Word
  deriving DecidableEq

namespace Instr

def rdField : Field := ⟨7, 5⟩
def rs1Field : Field := ⟨15, 5⟩
def rs2Field : Field := ⟨20, 5⟩

-- Adds registers to a word in which their fields are zero.
def insertRegs (w : Word) (rd rs1 rs2 : Reg) : Word :=
  rs2Field.insert (rs1Field.insert (rdField.insert w rd.toWord) rs1.toWord) rs2.toWord

-- What the operands of each layout make of a word that has every bit of theirs zero. Any word may
-- be given, and a bit of it that is set stays set.
section Layouts

variable (bits : Word)

def encodeRegister (rd rs1 rs2 : Reg) : Word :=
  insertRegs bits rd rs1 rs2

def encodeImmediate (rd rs1 : Reg) (imm : Word) : Word :=
  Layout.iImm.insert (insertRegs bits rd rs1 .zero) imm

def encodeShift (rd rs1 : Reg) (amount : Word) : Word :=
  rs2Field.insert (insertRegs bits rd rs1 .zero) amount

def encodeStore (rs1 rs2 : Reg) (imm : Word) : Word :=
  Layout.sImm.insert (insertRegs bits .zero rs1 rs2) imm

-- The lowest bit of a displacement is lost.
def encodeBranch (rs1 rs2 : Reg) (disp : Word) : Word :=
  Layout.bImm.insert (insertRegs bits .zero rs1 rs2) (disp >>> 1)

def encodeUpper (rd : Reg) (imm20 : Word) : Word :=
  Layout.uImm.insert (insertRegs bits rd .zero .zero) imm20

def encodeJump (rd : Reg) (disp : Word) : Word :=
  Layout.jImm.insert (insertRegs bits rd .zero .zero) (disp >>> 1)

end Layouts

-- The word of an instruction. Bits of the immediate that its layout has no room for are lost.
def encode (i : Instr) : Word :=
  let bits := i.op.fixedBits
  match i.op.format with
  | .reg => encodeRegister bits i.rd i.rs1 i.rs2
  | .imm | .load => encodeImmediate bits i.rd i.rs1 i.imm
  | .shift => encodeShift bits i.rd i.rs1 i.imm
  | .store => encodeStore bits i.rs1 i.rs2 i.imm
  | .branch => encodeBranch bits i.rs1 i.rs2 i.imm
  | .upper => encodeUpper bits i.rd (i.imm >>> 12)
  | .jump => encodeJump bits i.rd i.imm
  | .system | .fence => bits

def register (op : Op) (rd rs1 rs2 : Reg) : Instr :=
  ⟨op, rd, rs1, rs2, 0⟩

-- An instruction with a destination, a source and an immediate or a shift amount.
def immediate (op : Op) (rd rs1 : Reg) (v : Word) : Instr :=
  ⟨op, rd, rs1, .zero, v⟩

-- A store or a branch.
def sources (op : Op) (rs1 rs2 : Reg) (v : Word) : Instr :=
  ⟨op, .zero, rs1, rs2, v⟩

-- An instruction whose immediate is given as its upper 20 bits.
def upper (op : Op) (rd : Reg) (imm20 : Word) : Instr :=
  ⟨op, rd, .zero, .zero, imm20 <<< 12⟩

def jump (op : Op) (rd : Reg) (disp : Word) : Instr :=
  ⟨op, rd, .zero, .zero, disp⟩

def bare (op : Op) : Instr :=
  ⟨op, .zero, .zero, .zero, 0⟩

end Instr

end RV32IM
