import Mathlib
import RV32IM.Proofs.Guest.Step

-- Whole runs of a guest. Whoever holds a guest lets it take single steps, serves its requests and
-- lets it run, in any order, and may go on after a fault. All of this is made of three transitions.

namespace RV32IM.Guest

inductive Move
  | step
  | serve
  | run
  deriving DecidableEq

-- What a move gives whoever makes it.
inductive Report
  | stepped (r : Except Trap Step)
  | served (r : Except Trap Unit)
  | ran (r : Except Trap Outcome)

variable {η σ : Type}

-- How many instructions guests execute, each in its next step.
def executed (gs : List (Guest η σ)) : Nat :=
  gs.countP (·.machine.executes)

@[simp]
theorem executed_nil : executed ([] : List (Guest η σ)) = 0 :=
  rfl

theorem executed_cons (g : Guest η σ) (gs : List (Guest η σ)) :
    executed (g :: gs) = g.machine.executes.toNat + executed gs := by
  cases h : g.machine.executes
  all_goals simp [executed, h, Nat.add_comm]

variable [HostInterface η σ]

def act (g : Guest η σ) : Move → Report × Guest η σ
  | .step => (.stepped g.machine.step.fst, g.advance)
  | .serve => (.served g.serve.fst, g.serve.snd)
  | .run => (.ran g.run.fst, g.run.snd)

-- Makes moves one after the other, whatever each of them gives.
def drive : List Move → Guest η σ → List Report × Guest η σ
  | [], g => ([], g)
  | mv :: mvs, g =>
    let (r, g) := g.act mv
    let (rs, g) := drive mvs g
    (r :: rs, g)

-- The guests that take a step while at most `budget` instructions run.
def stepsFor : (budget : Nat) → Guest η σ → List (Guest η σ)
  | 0, _ => []
  | budget + 1, g =>
    match g.step with
    | (.ok none, g') => g :: stepsFor budget g'
    | _ => [g]

def stepsOf (g : Guest η σ) : Move → List (Guest η σ)
  | .step => [g]
  | .serve => []
  | .run => stepsFor g.machine.hart.watchdog g.resume

-- The guests that take a step while moves are made.
def history : List Move → Guest η σ → List (Guest η σ)
  | [], _ => []
  | mv :: mvs, g => g.stepsOf mv ++ history mvs (g.act mv).snd

inductive Transition (g : Guest η σ) : Guest η σ → Prop
  | step   : Transition g g.advance
  | serve  : Transition g g.serve.snd
  | resume : Transition g g.resume

def Reaches : Guest η σ → Guest η σ → Prop :=
  Relation.ReflTransGen Transition

variable {g g' s : Guest η σ}

theorem reaches_of_step {r : Except Trap (Option Outcome)} (h : g.step = (r, g')) :
    g.Reaches g' := by
  cases effect_of_step h
  case fault  => exact .single .step
  case halt   => exact .single .step
  case retire => exact .single .step
  case refuse => exact .tail (.single .step) .serve
  case serve  => exact .tail (.single .step) .serve

theorem reaches_runFor (executed budget : Nat) (g : Guest η σ) :
    g.Reaches (runFor executed budget g).snd := by
  fun_induction runFor executed budget g
  case case1 => exact .refl
  case case2 h => exact reaches_of_step h
  case case3 h => exact reaches_of_step h
  case case4 h ih => exact (reaches_of_step h).trans ih

theorem reaches_run (g : Guest η σ) : g.Reaches g.run.snd :=
  .head .resume (reaches_runFor ..)

theorem reaches_act (g : Guest η σ) : (mv : Move) → g.Reaches (g.act mv).snd
  | .step  => .single .step
  | .serve => .single .serve
  | .run   => g.reaches_run

theorem reaches_drive (mvs : List Move) (g : Guest η σ) : g.Reaches (drive mvs g).snd := by
  induction mvs generalizing g
  case nil => exact .refl
  case cons mv mvs ih => exact (g.reaches_act mv).trans (ih _)

theorem reaches_of_mem_stepsFor {budget : Nat} (h : s ∈ stepsFor budget g) : g.Reaches s := by
  fun_induction stepsFor budget g
  case case1 => cases h
  case case2 g g' hs ih =>
    cases h
    case head => exact .refl
    case tail h => exact (reaches_of_step hs).trans (ih h)
  case case3 => exact List.mem_singleton.mp h ▸ .refl

theorem reaches_of_mem_stepsOf {mv : Move} (h : s ∈ g.stepsOf mv) : g.Reaches s := by
  cases mv
  case step  => exact List.mem_singleton.mp h ▸ .refl
  case serve => cases h
  case run   => exact .head .resume (reaches_of_mem_stepsFor h)

theorem reaches_of_mem_history {mvs : List Move} (h : s ∈ history mvs g) : g.Reaches s := by
  induction mvs generalizing g
  case nil => cases h
  case cons mv mvs ih =>
    cases List.mem_append.mp h
    case inl h => exact reaches_of_mem_stepsOf h
    case inr h => exact (g.reaches_act mv).trans (ih h)

theorem retired_runFor (n budget : Nat) (g : Guest η σ) :
    (runFor n budget g).snd.machine.hart.retired =
      g.machine.hart.retired + executed (stepsFor budget g) := by
  fun_induction runFor n budget g
  case case1 => rfl
  case case2 h => simp [stepsFor, h, executed_cons, retired_of_step h]
  case case3 h => simp [stepsFor, h, executed_cons, retired_of_step h]
  case case4 h ih => simp only [stepsFor, h, executed_cons, ih, retired_of_step h, Nat.add_assoc]

theorem retired_act (g : Guest η σ) : (mv : Move) →
    (g.act mv).snd.machine.hart.retired = g.machine.hart.retired + executed (g.stepsOf mv)
  | .step  => by simp [act, stepsOf, advance, executed_cons, Machine.retired_step]
  | .serve => g.serves_serve.retired
  | .run   => retired_runFor 0 g.machine.hart.watchdog g.resume

-- The count of retired instructions is that of the history.
theorem retired_drive (mvs : List Move) (g : Guest η σ) :
    (drive mvs g).snd.machine.hart.retired =
      g.machine.hart.retired + executed (history mvs g) := by
  induction mvs generalizing g
  case nil => rfl
  case cons mv mvs ih =>
    simp only [drive, history, ih, retired_act, executed, List.countP_append, Nat.add_assoc]

-- A program that stores five in memory that it cannot read, and then exits with it.
def sample (hidden : Word) : Guest Handle Host where
  machine.hart.pc := 0x1000
  machine.hart.regs := (RegFile.empty.set .a0 5).set .a1 0x2000
  machine.hart.watchdog := 2000
  machine.hart.exit := none
  machine.hart.retired := 0
  machine.space.entries := [
    (0x2000, ⟨0x2000, .write, hidden.toBytes.toArray⟩),
    (0x1000, ⟨0x1000, .readExecute, (Word.toBytes 0x00a5a023 ++ Word.toBytes 0x00000073).toArray⟩)]
  os := .start ⟨[], {}, {}, .empty⟩

end RV32IM.Guest
