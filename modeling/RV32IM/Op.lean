import RV32IM.Word

-- The operations of RV32IM and how each is coded: its mnemonic, the layout of its operands, and the
-- bits that identify it.

namespace RV32IM

inductive Op
  | lui | auipc | jal | jalr
  | beq | bne | blt | bge | bltu | bgeu
  | lb | lh | lw | lbu | lhu
  | sb | sh | sw
  | addi | slti | sltiu | xori | ori | andi
  | slli | srli | srai
  | add | sub | sll | slt | sltu | xor | srl | sra | or | and
  | mul | mulh | mulhsu | mulhu | div | divu | rem | remu
  | fence | ecall | ebreak
  deriving DecidableEq

-- The operand layout of an instruction.
inductive Format
  -- Two source registers and a destination.
  | reg
  -- A source register, a destination and a 12-bit immediate; `jalr` is one of them.
  | imm
  -- As `imm`, for loads.
  | load
  -- As `imm`, with a 5-bit amount and further operation bits above it.
  | shift
  -- Two source registers and a 12-bit immediate in two parts.
  | store
  | branch
  | upper
  | jump
  -- No operand: every bit is fixed.
  | system
  -- No operand that matters: the bits of the operands are ignored.
  | fence
  deriving DecidableEq

-- The bits that tell operations apart. `ext` is the upper seven bits of register and shift
-- instructions, the upper twelve of system instructions, and zero elsewhere.
structure Key where
  opcode : BitVec 7
  funct3 : BitVec 3
  ext    : BitVec 12
  deriving DecidableEq

structure Coding where
  mnemonic : String
  format   : Format
  key      : Key

namespace Op

-- All operations, in the order in which they are listed.
def all : List Op :=
  [lui, auipc, jal, jalr, beq, bne, blt, bge, bltu, bgeu, lb, lh, lw, lbu, lhu, sb, sh, sw, addi,
    slti, sltiu, xori, ori, andi, slli, srli, srai, add, sub, sll, slt, sltu, xor, srl, sra, or,
    and, mul, mulh, mulhsu, mulhu, div, divu, rem, remu, fence, ecall, ebreak]

theorem mem_all (op : Op) : op ∈ all := by
  cases op <;> decide

def coding : Op → Coding
  | lui    => ⟨"lui",    .upper,  0x37, 0, 0⟩
  | auipc  => ⟨"auipc",  .upper,  0x17, 0, 0⟩
  | jal    => ⟨"jal",    .jump,   0x6F, 0, 0⟩
  | jalr   => ⟨"jalr",   .imm,    0x67, 0, 0⟩
  | beq    => ⟨"beq",    .branch, 0x63, 0, 0⟩
  | bne    => ⟨"bne",    .branch, 0x63, 1, 0⟩
  | blt    => ⟨"blt",    .branch, 0x63, 4, 0⟩
  | bge    => ⟨"bge",    .branch, 0x63, 5, 0⟩
  | bltu   => ⟨"bltu",   .branch, 0x63, 6, 0⟩
  | bgeu   => ⟨"bgeu",   .branch, 0x63, 7, 0⟩
  | lb     => ⟨"lb",     .load,   0x03, 0, 0⟩
  | lh     => ⟨"lh",     .load,   0x03, 1, 0⟩
  | lw     => ⟨"lw",     .load,   0x03, 2, 0⟩
  | lbu    => ⟨"lbu",    .load,   0x03, 4, 0⟩
  | lhu    => ⟨"lhu",    .load,   0x03, 5, 0⟩
  | sb     => ⟨"sb",     .store,  0x23, 0, 0⟩
  | sh     => ⟨"sh",     .store,  0x23, 1, 0⟩
  | sw     => ⟨"sw",     .store,  0x23, 2, 0⟩
  | addi   => ⟨"addi",   .imm,    0x13, 0, 0⟩
  | slti   => ⟨"slti",   .imm,    0x13, 2, 0⟩
  | sltiu  => ⟨"sltiu",  .imm,    0x13, 3, 0⟩
  | xori   => ⟨"xori",   .imm,    0x13, 4, 0⟩
  | ori    => ⟨"ori",    .imm,    0x13, 6, 0⟩
  | andi   => ⟨"andi",   .imm,    0x13, 7, 0⟩
  | slli   => ⟨"slli",   .shift,  0x13, 1, 0⟩
  | srli   => ⟨"srli",   .shift,  0x13, 5, 0⟩
  | srai   => ⟨"srai",   .shift,  0x13, 5, 0x20⟩
  | add    => ⟨"add",    .reg,    0x33, 0, 0⟩
  | sub    => ⟨"sub",    .reg,    0x33, 0, 0x20⟩
  | sll    => ⟨"sll",    .reg,    0x33, 1, 0⟩
  | slt    => ⟨"slt",    .reg,    0x33, 2, 0⟩
  | sltu   => ⟨"sltu",   .reg,    0x33, 3, 0⟩
  | xor    => ⟨"xor",    .reg,    0x33, 4, 0⟩
  | srl    => ⟨"srl",    .reg,    0x33, 5, 0⟩
  | sra    => ⟨"sra",    .reg,    0x33, 5, 0x20⟩
  | or     => ⟨"or",     .reg,    0x33, 6, 0⟩
  | and    => ⟨"and",    .reg,    0x33, 7, 0⟩
  | mul    => ⟨"mul",    .reg,    0x33, 0, 1⟩
  | mulh   => ⟨"mulh",   .reg,    0x33, 1, 1⟩
  | mulhsu => ⟨"mulhsu", .reg,    0x33, 2, 1⟩
  | mulhu  => ⟨"mulhu",  .reg,    0x33, 3, 1⟩
  | div    => ⟨"div",    .reg,    0x33, 4, 1⟩
  | divu   => ⟨"divu",   .reg,    0x33, 5, 1⟩
  | rem    => ⟨"rem",    .reg,    0x33, 6, 1⟩
  | remu   => ⟨"remu",   .reg,    0x33, 7, 1⟩
  | fence  => ⟨"fence",  .fence,  0x0F, 0, 0⟩
  | ecall  => ⟨"ecall",  .system, 0x73, 0, 0⟩
  | ebreak => ⟨"ebreak", .system, 0x73, 0, 1⟩

def mnemonic (op : Op) : String :=
  op.coding.mnemonic

def format (op : Op) : Format :=
  op.coding.format

def key (op : Op) : Key :=
  op.coding.key

-- Whether the operands are a destination, a source register and a 12-bit immediate.
def TakesImmediate (op : Op) : Prop :=
  op.format = .imm ∨ op.format = .load

instance (op : Op) : Decidable op.TakesImmediate :=
  inferInstanceAs (Decidable (_ ∨ _))

theorem TakesImmediate.imm {op : Op} (h : op.format = .imm) : op.TakesImmediate :=
  .inl h

theorem TakesImmediate.load {op : Op} (h : op.format = .load) : op.TakesImmediate :=
  .inr h

def ofMnemonic? (name : List Char) : Option Op :=
  all.find? fun op => op.mnemonic.toList = name.map Char.toLower

def ofKey? (key : Key) : Option Op :=
  all.find? fun op => op.key = key

theorem ofKey?_key (op : Op) : ofKey? op.key = some op := by
  cases op <;> rfl

theorem key_of_ofKey? {k : Key} {op : Op} (h : ofKey? k = some op) : op.key = k := by
  simpa using List.find?_some h

-- The instruction word with every operand bit zero.
def fixedBits (op : Op) : Word :=
  let { opcode, funct3, ext } := op.key
  let low := opcode.setWidth 32 ||| funct3.setWidth 32 <<< 12
  match op.format with
  | .upper | .jump => opcode.setWidth 32
  | .reg | .shift => low ||| ext.setWidth 32 <<< 25
  | .system => low ||| ext.setWidth 32 <<< 20
  | _ => low

end Op

end RV32IM
