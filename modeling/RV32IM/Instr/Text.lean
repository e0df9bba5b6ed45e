import RV32IM.Instr.Decode

-- The text of instructions and of instruction words.

namespace RV32IM

namespace Instr

def memoryText (base : Reg) (offset : Word) : String :=
  Numeral.decimal offset.toInt ++ "(" ++ base.text ++ ")"

def operandTexts (i : Instr) : List String :=
  match i.op.format with
  | .reg => [i.rd.text, i.rs1.text, i.rs2.text]
  | .imm =>
    if i.op = .jalr then [i.rd.text, memoryText i.rs1 i.imm]
    else [i.rd.text, i.rs1.text, Numeral.decimal i.imm.toInt]
  | .shift => [i.rd.text, i.rs1.text, Numeral.decimal i.imm.toInt]
  | .load => [i.rd.text, memoryText i.rs1 i.imm]
  | .store => [i.rs2.text, memoryText i.rs1 i.imm]
  | .branch => [i.rs1.text, i.rs2.text, Numeral.signed i.imm.toInt]
  | .upper => [i.rd.text, "0x" ++ Numeral.hex (i.imm >>> 12).toNat]
  | .jump => [i.rd.text, Numeral.signed i.imm.toInt]
  | .system | .fence => []

def text (i : Instr) : String :=
  match i.operandTexts with
  | [] => i.op.mnemonic
  | operands => i.op.mnemonic ++ " " ++ ", ".intercalate operands

end Instr

-- The text of any word: an instruction, the word that halts a program, or plain data.
def Word.instrText (w : Word) : String :=
  match Instr.decode w with
  | some i => i.text
  | none => if w = 0 then "invalid" else ".word " ++ Numeral.address w

end RV32IM
