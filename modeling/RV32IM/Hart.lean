import RV32IM.Memory.Access
import RV32IM.Reg

-- The state of a hart, and the ways in which a step and a run of it end.

namespace RV32IM

structure HartConfig where
  -- The number of instructions that one run may execute.
  watchdog  : Nat := 2000
  -- What the stack pointer holds at first, if that is not left to whoever loads the program.
  initialSp : Option Word := none
  deriving DecidableEq

structure Hart where
  pc       : Word
  regs     : RegFile
  watchdog : Nat
  -- The code with which the program has asked to stop.
  exit     : Option Word
  -- The number of instructions executed so far. Nothing here bounds it.
  retired  : Nat
  deriving DecidableEq

-- A fault that ends a run. `pc` is the address of the instruction at fault.
inductive Trap
  | invalidInstr (pc raw : Word)
  | misalignedFetch (pc : Word)
  | memory (pc : Word) (source : MemoryError)
  | breakpoint (pc : Word)
  | unknownSyscall (pc number : Word)
  deriving DecidableEq

open Numeral in
def Trap.message : Trap → String
  | invalidInstr pc raw => "invalid instruction " ++ address raw ++ " at " ++ address pc
  | misalignedFetch pc => "misaligned instruction fetch at " ++ address pc
  | memory pc source => "memory fault at pc " ++ address pc ++ ": " ++ source.message
  | breakpoint pc => "breakpoint at " ++ address pc
  | unknownSyscall pc number =>
    "unknown syscall " ++ decimal number.toNat ++ " at " ++ address pc

inductive Step
  | retired
  -- The zero word was fetched and nothing was executed.
  | halted
  -- `ecall` retired; the request it makes has yet to be served.
  | ecall
  deriving DecidableEq

inductive Outcome
  | exited (code : Word)
  | halted
  | watchdogExpired (executed : Nat)
  deriving DecidableEq

namespace Outcome

-- The exit status for a program that halted is -1, and for one that was cut off -2.
def exitCode : Outcome → Word
  | exited code => code
  | halted => -1
  | watchdogExpired _ => -2

def text : Outcome → String
  | exited code => "Exited(" ++ Numeral.decimal code.toInt ++ ")"
  | halted => "Halted"
  | watchdogExpired executed =>
    "WatchdogExpired \x7b executed: " ++ Numeral.decimal executed ++ " \x7d"

end Outcome

namespace Hart

-- A hart about to execute at `pc`, with nothing in its registers but the stack pointer.
def start (cfg : HartConfig) (pc : Word) : Hart where
  pc
  regs := match cfg.initialSp with
    | some sp => RegFile.empty.set .sp sp
    | none => .empty
  watchdog := cfg.watchdog
  exit := none
  retired := 0

-- Continues at `pc`. Registers keep what they hold.
def reset (h : Hart) (pc : Word) : Hart :=
  { h with pc, exit := none }

-- Asks the current run to end after this step.
def stop (h : Hart) (code : Word) : Hart :=
  { h with exit := some code }

def setReg (h : Hart) (r : Reg) (w : Word) : Hart :=
  { h with regs := h.regs.set r w }

def jump (h : Hart) (pc : Word) : Hart :=
  { h with pc }

def retire (h : Hart) : Hart :=
  { h with retired := h.retired + 1 }

end Hart

end RV32IM
