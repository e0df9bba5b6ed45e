import RV32IM.Instr

-- Decoding: from the identifying bits of a word to its operation, and from the format of the
-- operation to its operands.

namespace RV32IM

-- The bits of a word that decide its operation. Which of them count depends on the opcode.
def Key.ofWord (w : Word) : Key :=
  let opcode := w.extractLsb' 0 7
  let funct3 := w.extractLsb' 12 3
  let funct7 := (w.extractLsb' 25 7).setWidth 12
  if opcode = 0x37 ∨ opcode = 0x17 ∨ opcode = 0x6F then ⟨opcode, 0, 0⟩
  else if opcode = 0x33 ∨ opcode = 0x13 ∧ (funct3 = 1 ∨ funct3 = 5) then ⟨opcode, funct3, funct7⟩
  else if opcode = 0x73 then ⟨opcode, funct3, w.extractLsb' 20 12⟩
  else ⟨opcode, funct3, 0⟩

namespace Instr

-- The operands of a word whose operation is known. A system instruction must name no register.
def operands? (op : Op) (w : Word) : Option Instr :=
  let rd := Reg.ofWord (rdField.extract w)
  let rs1 := Reg.ofWord (rs1Field.extract w)
  let rs2 := Reg.ofWord (rs2Field.extract w)
  match op.format with
  | .reg => some (register op rd rs1 rs2)
  | .imm | .load => some (immediate op rd rs1 (Layout.iImm.extractSigned w))
  | .shift => some (immediate op rd rs1 (rs2Field.extract w))
  | .store => some (sources op rs1 rs2 (Layout.sImm.extractSigned w))
  | .branch => some (sources op rs1 rs2 (Layout.bImm.extractSigned w <<< 1))
  | .upper => some (jump op rd (w &&& 0xFFFFF000))
  | .jump => some (jump op rd (Layout.jImm.extractSigned w <<< 1))
  | .system => if rd = .zero ∧ rs1 = .zero then some (bare op) else none
  | .fence => some (bare op)

def decode (w : Word) : Option Instr :=
  (Op.ofKey? (.ofWord w)).bind (operands? · w)

end Instr

end RV32IM
