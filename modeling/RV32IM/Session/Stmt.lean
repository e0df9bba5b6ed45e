import RV32IM.Session

-- Statements: what a session can be told to do, and the pseudo-instructions that stand for one or
-- two instructions.

namespace RV32IM

-- Operands go into the word `bits` by the layout of the statement. The word is the fixed bits of
-- some operation, which need not have that layout.
inductive Stmt
  | emitRegister (bits : Word) (rd rs1 rs2 : Reg)
  | emitImmediate (bits : Word) (rd rs1 : Reg) (imm : Imm)
  | emitShift (bits : Word) (rd rs1 : Reg) (amount : Word)
  | emitStore (bits : Word) (src base : Reg) (imm : Imm)
  | emitBranch (bits : Word) (rs1 rs2 : Reg) (target : Target)
  | emitUpper (bits : Word) (rd : Reg) (imm : Imm)
  | emitJump (bits : Word) (rd : Reg) (target : Target)
  | word (w : Word)
  -- A word that holds the address of a symbol.
  | wordOf (symbol : String)
  | bytes (bs : List Byte)
  | zeros (len : Nat)
  | align (n : Nat)
  | label (name : String)
  | define (sym : Symbol)
  -- A fresh anchor that no operand refers to.
  | anchor (distance : Word)
  -- A complaint of whoever drives the session.
  | report (d : Diagnostic)

namespace Session

-- Operands are looked at before the word is appended, so what is reported or recorded names the
-- address of the word.
def exec (s : Session) : Stmt → Session
  | .emitRegister bits rd rs1 rs2 => s.word (Instr.encodeRegister bits rd rs1 rs2)
  | .emitImmediate bits rd rs1 imm =>
    let (v, s) := s.lowImm imm
    s.word (Instr.encodeImmediate bits rd rs1 v)
  | .emitShift bits rd rs1 amount =>
    (s.shiftAmount amount).word (Instr.encodeShift bits rd rs1 amount)
  | .emitStore bits src base imm =>
    let (v, s) := s.lowImm imm
    s.word (Instr.encodeStore bits base src v)
  | .emitBranch bits rs1 rs2 target =>
    let (disp, s) := s.displacement .branch target
    s.word (Instr.encodeBranch bits rs1 rs2 disp)
  | .emitUpper bits rd imm =>
    let (v, s) := s.upperImm imm
    s.word (Instr.encodeUpper bits rd v)
  | .emitJump bits rd target =>
    let (disp, s) := s.displacement .jump target
    s.word (Instr.encodeJump bits rd disp)
  | .word w => s.word w
  | .wordOf symbol => (s.record .word symbol).word 0
  | .bytes bs => s.bytes bs
  | .zeros len => s.zeros len
  | .align n => s.align n
  | .label name => s.label name
  | .define sym => s.define sym
  | .anchor distance => (s.anchor distance).2
  | .report d => s.report d

def run (s : Session) (stmts : List Stmt) : Session :=
  stmts.foldl exec s

end Session

def Object.ofStmts (base : Word) (stmts : List Stmt) : Object :=
  ((Session.start base).run stmts).toObject

namespace Stmt

-- The statements of each operation, which is only given operands of its own format.
section Typed

def register (op : Op) (rd rs1 rs2 : Reg) (_ : op.format = .reg := by rfl) : Stmt :=
  .emitRegister op.fixedBits rd rs1 rs2

-- Register-immediate arithmetic, `jalr` or a load.
def immediate (op : Op) (rd rs1 : Reg) (imm : Imm) (_ : op.TakesImmediate := by decide) : Stmt :=
  .emitImmediate op.fixedBits rd rs1 imm

def shift (op : Op) (rd rs1 : Reg) (amount : Word) (_ : op.format = .shift := by rfl) : Stmt :=
  .emitShift op.fixedBits rd rs1 amount

def store (op : Op) (src base : Reg) (imm : Imm) (_ : op.format = .store := by rfl) : Stmt :=
  .emitStore op.fixedBits src base imm

def branch (op : Op) (rs1 rs2 : Reg) (target : Target) (_ : op.format = .branch := by rfl) : Stmt :=
  .emitBranch op.fixedBits rs1 rs2 target

def upper (op : Op) (rd : Reg) (imm : Imm) (_ : op.format = .upper := by rfl) : Stmt :=
  .emitUpper op.fixedBits rd imm

def jump (op : Op) (rd : Reg) (target : Target) (_ : op.format = .jump := by rfl) : Stmt :=
  .emitJump op.fixedBits rd target

-- The bits of an operation with every operand zero.
def bare (op : Op) : Stmt :=
  .word op.fixedBits

end Typed

def halt : Stmt := .word 0

def nop : Stmt := .immediate .addi .zero .zero (.value 0)

def mv (rd rs : Reg) : Stmt := .immediate .addi rd rs (.value 0)

-- Loads a constant: one instruction if it has twelve bits or its low twelve bits are zero, else
-- two.
def li (rd : Reg) (v : Word) : List Stmt :=
  if fitsSigned v.toInt 12 then [.immediate .addi rd .zero (.value v)]
  else
    let (hi, lo) := splitDisplacement v
    .upper .lui rd (.value hi) ::
      if lo = 0 then [] else [.immediate .addi rd rd (.value lo)]

def j (target : Target) : Stmt := .jump .jal .zero target

def jr (rs : Reg) : Stmt := .immediate .jalr .zero rs (.value 0)

def ret : Stmt := jr .ra

def la (rd : Reg) (symbol : String) : List Stmt :=
  [.upper .auipc rd (.hi symbol), .immediate .addi rd rd (.lo 4)]

-- Calls a symbol at any distance.
def call (symbol : String) : List Stmt :=
  [.upper .auipc .ra (.hi symbol), .immediate .jalr .ra .ra (.lo 4)]

end Stmt

end RV32IM
