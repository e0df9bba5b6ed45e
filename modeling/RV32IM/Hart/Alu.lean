import RV32IM.Layout
import RV32IM.Op

-- What the operations compute from the values of their operands.

namespace RV32IM.Op

def upperHalf (p : BitVec 64) : Word :=
  p.extractLsb' 32 32

def ofBool (p : Bool) : Word :=
  if p then 1 else 0

-- The result of arithmetic. Register-immediate forms take the immediate for `b`, and shifts use its
-- low five bits. Division by zero has a result and not a fault.
def alu (op : Op) (a b : Word) : Word :=
  match op with
  | add | addi => a + b
  | sub => a - b
  | sll | slli => a <<< (b &&& 31)
  | slt | slti => ofBool (a.slt b)
  | sltu | sltiu => ofBool (a.ult b)
  | xor | xori => a ^^^ b
  | srl | srli => a >>> (b &&& 31)
  | sra | srai => a.sshiftRight' (b &&& 31)
  | or | ori => a ||| b
  | and | andi => a &&& b
  | mul => a * b
  | mulh => upperHalf (a.signExtend 64 * b.signExtend 64)
  | mulhsu => upperHalf (a.signExtend 64 * b.setWidth 64)
  | mulhu => upperHalf (a.setWidth 64 * b.setWidth 64)
  | div => if b = 0 then -1 else a.sdiv b
  | divu => if b = 0 then -1 else a.udiv b
  | rem => if b = 0 then a else a.srem b
  | remu => if b = 0 then a else a.umod b
  | _ => 0

def taken (op : Op) (a b : Word) : Bool :=
  match op with
  | beq => a == b
  | bne => a != b
  | blt => a.slt b
  | bge => !a.slt b
  | bltu => a.ult b
  | bgeu => !a.ult b
  | _ => false

def accessWidth : Op → Nat
  | lb | lbu | sb => 1
  | lh | lhu | sh => 2
  | _ => 4

def loaded (op : Op) (bs : List Byte) : Word :=
  match op with
  | lb => signExtend (.ofBytes bs) 8
  | lh => signExtend (.ofBytes bs) 16
  | _ => .ofBytes bs

end RV32IM.Op
