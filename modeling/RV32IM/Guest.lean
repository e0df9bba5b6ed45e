import RV32IM.Machine
import RV32IM.Os

-- System calls and runs. The number of a call is in `a7`, its arguments are in `a0` to `a2`, and
-- its result goes to `a0`. A fault in memory that belongs to the program ends the run, as does a
-- number that is no call.

namespace RV32IM

namespace Os

variable {η σ β : Type}

-- Puts the result of a request into `a0`; a fault changes nothing that the program can see.
def answer (pc : Word) (hart : Hart) (bus : β) (os : Os η σ) :
    Except MemoryError Word → Except Trap Unit × Hart × β × Os η σ
  | .ok w => (.ok (), hart.setReg .a0 w, bus, os)
  | .error e => (.error (.memory pc e), hart, bus, os)

-- Serves the request of the `ecall` that has just retired.
def trap [Bus β] [HostInterface η σ] (os : Os η σ) (hart : Hart) (bus : β) :
    Except Trap Unit × Hart × β × Os η σ :=
  let pc := hart.pc - 4
  let number := hart.regs.get .a7
  let a0 := hart.regs.get .a0
  let a1 := hart.regs.get .a1
  let a2 := hart.regs.get .a2
  if number = 0 then (.ok (), hart.stop a0, bus, os)
  else if number = 1 then
    let (r, os) := os.write bus a0 a1 a2.toNat
    answer pc hart bus os r
  else if number = 2 then
    let (r, bus, os) := os.read bus a0 a1 a2.toNat
    answer pc hart bus os r
  else if number = 3 then
    let (r, os) := os.openFile bus a0 a1
    answer pc hart bus os r
  else if number = 4 then
    let (r, os) := os.close a0
    answer pc hart bus os (.ok r)
  else (.error (.unknownSyscall pc number), hart, bus, os)

end Os

-- A machine with the handles of the program that runs on it.
structure Guest (η σ : Type) where
  machine : Machine
  os      : Os η σ

namespace Guest

variable {η σ : Type}

-- The program that a request leaves.
def settle : Except Trap Unit × Hart × AddressSpace × Os η σ → Except Trap Unit × Guest η σ
  | (r, hart, space, os) => (r, ⟨⟨hart, space⟩, os⟩)

def answer (pc : Word) (m : Machine) (os : Os η σ) (r : Except MemoryError Word) :
    Except Trap Unit × Guest η σ :=
  settle (os.answer pc m.hart m.space r)

-- A run begins without a request to stop.
def resume (g : Guest η σ) : Guest η σ :=
  { g with machine := { g.machine with hart := { g.machine.hart with exit := none } } }

section Requests

variable [HostInterface η σ]

-- Serves the request of the `ecall` that has just retired, with the memory of the machine.
def serve (g : Guest η σ) : Except Trap Unit × Guest η σ :=
  settle (g.os.trap g.machine.hart g.machine.space)

-- One instruction, with the request it makes if it is an `ecall`. There is an outcome if the
-- program ends with it.
def step (g : Guest η σ) : Except Trap (Option Outcome) × Guest η σ :=
  let ⟨m, os⟩ := g
  match m.step with
  | (.error t, m) => (.error t, ⟨m, os⟩)
  | (.ok .halted, m) => (.ok (some .halted), ⟨m, os⟩)
  | (.ok .retired, m) => (.ok (m.hart.exit.map .exited), ⟨m, os⟩)
  | (.ok .ecall, m) =>
    match serve ⟨m, os⟩ with
    | (.error t, g) => (.error t, g)
    | (.ok _, g) => (.ok (g.machine.hart.exit.map .exited), g)

-- Runs for at most `budget` more instructions after those executed so far.
def runFor (executed : Nat) : (budget : Nat) → Guest η σ → Except Trap Outcome × Guest η σ
  | 0, g => (.ok (.watchdogExpired executed), g)
  | budget + 1, g =>
    match g.step with
    | (.error t, g) => (.error t, g)
    | (.ok (some o), g) => (.ok o, g)
    | (.ok none, g) => runFor (executed + 1) budget g

-- Runs until the program stops, halts or faults, or its watchdog expires.
def run (g : Guest η σ) : Except Trap Outcome × Guest η σ :=
  runFor 0 g.machine.hart.watchdog g.resume

-- The path that the next instruction asks to open, if it is such a request.
def asked? (g : Guest η σ) : Option String :=
  let m := g.machine
  match m.space.fetch m.hart.pc with
  | .error _ => none
  | .ok raw =>
    if raw = Op.fixedBits .ecall ∧ m.hart.regs.get .a7 = 3 then
      match Os.path? m.space (m.hart.regs.get .a0) Directory.pathLimit with
      | .ok (some bs) => (Utf8.decode bs).toOption.map String.ofList
      | _ => none
    else none

-- The paths that at most `budget` instructions ask to open, after those in `acc`, the last first.
def askedFor (acc : List String) : (budget : Nat) → Guest η σ → List String
  | 0, _ => acc
  | budget + 1, g =>
    let acc := g.asked?.toList ++ acc
    match g.step with
    | (.ok none, g) => askedFor acc budget g
    | _ => acc

-- The paths that a run asks to open.
def asked (g : Guest η σ) : List String :=
  askedFor [] g.machine.hart.watchdog g.resume

end Requests

end Guest

end RV32IM
