import RV32IM.Hart.Alu
import RV32IM.Instr.Decode
import RV32IM.Hart
import RV32IM.Link

-- A hart and its memory: fetching, decoding and executing one instruction.

namespace RV32IM

structure Machine where
  hart  : Hart
  space : AddressSpace

namespace Machine

def start (space : AddressSpace) (entry : Word) (cfg : HartConfig) : Machine :=
  ⟨.start cfg entry, space⟩

-- Starts a linked program. The stack pointer begins at the top of the stack unless the
-- configuration says otherwise.
def ofLinked (l : Linked) (cfg : HartConfig) : Machine :=
  start l.space l.entry { cfg with initialSp := cfg.initialSp <|> l.stackTop }

-- Changes the hart of a machine whose step then counts as retired.
def retire (m : Machine) (f : Hart → Hart) : Except Trap Step × Machine :=
  (.ok .retired, { m with hart := (f m.hart).retire })

-- Executes an instruction that was fetched from `pc`, with the hart already past it. A fault keeps
-- everything but the pc as it was.
def exec (m : Machine) (pc : Word) (i : Instr) : Except Trap Step × Machine :=
  let a := m.hart.regs.get i.rs1
  let b := m.hart.regs.get i.rs2
  match i.op.format with
  | .reg => m.retire (·.setReg i.rd (i.op.alu a b))
  | .shift => m.retire (·.setReg i.rd (i.op.alu a i.imm))
  | .imm =>
    if i.op = .jalr then m.retire fun h => (h.jump ((a + i.imm) &&& ~~~1)).setReg i.rd (pc + 4)
    else m.retire (·.setReg i.rd (i.op.alu a i.imm))
  | .load =>
    match m.space.load (a + i.imm) i.op.accessWidth with
    | .ok bs => m.retire (·.setReg i.rd (i.op.loaded bs))
    | .error e => (.error (.memory pc e), m)
  | .store =>
    let bs := b.toBytes.take i.op.accessWidth
    match m.space.check (a + i.imm) bs.length .write with
    | .ok _ => retire { m with space := m.space.overwrite (a + i.imm) bs } id
    | .error e => (.error (.memory pc e), m)
  | .branch => m.retire fun h => if i.op.taken a b then h.jump (pc + i.imm) else h
  | .upper => m.retire (·.setReg i.rd (if i.op = .lui then i.imm else pc + i.imm))
  | .jump => m.retire fun h => (h.jump (pc + i.imm)).setReg i.rd (pc + 4)
  | .fence => m.retire id
  | .system =>
    if i.op = .ecall then (.ok .ecall, { m with hart := m.hart.retire })
    else (.error (.breakpoint pc), m)

def step (m : Machine) : Except Trap Step × Machine :=
  let pc := m.hart.pc
  if pc &&& 3 ≠ 0 then (.error (.misalignedFetch pc), m)
  else match m.space.fetch pc with
  | .error e => (.error (.memory pc e), m)
  | .ok raw =>
    if raw = 0 then (.ok .halted, m)
    else match Instr.decode raw with
    | none => (.error (.invalidInstr pc raw), m)
    | some i => exec { m with hart := m.hart.jump (pc + 4) } pc i

end Machine

end RV32IM
