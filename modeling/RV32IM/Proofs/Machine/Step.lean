import Mathlib
import RV32IM.Machine

-- What a step can do, said once. It finds an instruction and executes it, or leaves the machine as
-- it is. An instruction that is executed changes the hart, or writes where memory may be written,
-- or faults.

namespace RV32IM

-- The address of the instruction that a trap blames.
def Trap.pc : Trap → Word
  | invalidInstr pc _ => pc
  | misalignedFetch pc => pc
  | memory pc _ => pc
  | breakpoint pc => pc
  | unknownSyscall pc _ => pc

-- How many bytes an operation stores, if it is a store.
def Op.stored? : Op → Option Nat
  | sb => some 1
  | sh => some 2
  | sw => some 4
  | _ => none

theorem Op.stored?_eq {op : Op} (h : op.format = .store) : op.stored? = some op.accessWidth := by
  cases op
  case sb | sh | sw => rfl
  all_goals cases h

theorem Op.accessWidth_le (op : Op) : op.accessWidth ≤ 4 := by
  cases op <;> decide

-- Whether two register files differ at most in one register, and not if that is register zero.
def RegFile.DiffersAt (r : Reg) (f f' : RegFile) : Prop :=
  ∀ n : Fin 32, f'.cells.get n ≠ f.cells.get n → n = r.index.toFin ∧ n ≠ 0

namespace RegFile

variable (f : RegFile) (r : Reg)

theorem differsAt_refl : DiffersAt r f f :=
  fun _ h => absurd rfl h

theorem differsAt_set (w : Word) : DiffersAt r f (f.set r w) := by
  intro n hn
  unfold set at hn
  split at hn
  case isTrue => exact absurd rfl hn
  case isFalse hr =>
    have hindex : n = r.index.toFin := by
      by_contra hne
      have h : r.index.toNat ≠ n := fun h => hne (Fin.ext h.symm)
      exact hn (Vector.getElem_set_ne r.index.isLt n.isLt h)
    refine ⟨hindex, fun hz => hr ?_⟩
    obtain ⟨index⟩ := r
    exact congrArg Reg.mk (BitVec.toFin_inj.mp (hindex.symm.trans hz))

end RegFile

-- What a hart keeps that retires an instruction.
structure Hart.Retires (rd : Reg) (h h' : Hart) : Prop where
  regs     : h.regs.DiffersAt rd h'.regs
  watchdog : h'.watchdog = h.watchdog
  exit     : h'.exit = h.exit
  retired  : h'.retired = h.retired + 1

namespace Machine

-- What executing an instruction changes, where the hart is already past it.
inductive Change (m : Machine) (pc : Word) (i : Instr) : Except Trap Step × Machine → Prop
  | retire {h : Hart} {s : Step} (hs : s ≠ .halted) (hh : m.hart.Retires i.rd h) :
    Change m pc i (.ok s, ⟨h, m.space⟩)
  | store {bs : List Byte} {r : Region} (hn : i.op.stored? = some bs.length)
    (hr : m.space.check (m.hart.regs.get i.rs1 + i.imm) bs.length .write = .ok r) :
    Change m pc i (.ok .retired,
      ⟨m.hart.retire, m.space.overwrite (m.hart.regs.get i.rs1 + i.imm) bs⟩)
  | fault {t : Trap} (ht : t.pc = pc) : Change m pc i (.error t, m)

variable {m : Machine} {pc : Word} {i : Instr}

theorem change_setReg (pc' w : Word) :
    Change m pc i (m.retire fun h => (h.jump pc').setReg i.rd w) :=
  .retire nofun ⟨m.hart.regs.differsAt_set i.rd w, rfl, rfl, rfl⟩

theorem change_jump (pc' : Word) : Change m pc i (m.retire (·.jump pc')) :=
  .retire nofun ⟨m.hart.regs.differsAt_refl i.rd, rfl, rfl, rfl⟩

theorem change_exec (m : Machine) (pc : Word) (i : Instr) : Change m pc i (m.exec pc i) := by
  cases h : i.op.format
  all_goals simp only [exec, h]
  case load =>
    split
    case h_1 => exact change_setReg m.hart.pc _
    case h_2 => exact .fault rfl
  case store =>
    split
    case h_1 hc =>
      refine .store ?_ hc
      rw [Op.stored?_eq h, List.length_take, Word.length_toBytes,
        Nat.min_eq_left i.op.accessWidth_le]
    case h_2 => exact .fault rfl
  case imm =>
    split
    case isTrue => exact change_setReg _ _
    case isFalse => exact change_setReg m.hart.pc _
  case branch =>
    split
    case isTrue => exact change_jump _
    case isFalse => exact change_jump m.hart.pc
  case system =>
    split
    case isTrue => exact .retire (by simp) ⟨m.hart.regs.differsAt_refl i.rd, rfl, rfl, rfl⟩
    case isFalse => exact .fault rfl
  case jump => exact change_setReg _ _
  case fence => exact change_jump m.hart.pc
  all_goals exact change_setReg m.hart.pc _

-- What executing an instruction gives, where the hart is already past the instruction.
inductive Effect (m : Machine) : Except Trap Step × Machine → Prop
  | retire {h : Hart} {s : Step} (hs : s ≠ .halted) (hr : h.retired = m.hart.retired + 1) :
    Effect m (.ok s, ⟨h, m.space⟩)
  | store {addr : Word} {bs : List Byte} {r : Region}
    (h : m.space.check addr bs.length .write = .ok r) :
    Effect m (.ok .retired, ⟨m.hart.retire, m.space.overwrite addr bs⟩)
  | fault (t : Trap) : Effect m (.error t, m)

theorem effect_exec (m : Machine) (pc : Word) (i : Instr) : Effect m (m.exec pc i) := by
  have h := m.change_exec pc i
  generalize m.exec pc i = r at h
  cases h
  case retire hs hh => exact .retire hs hh.retired
  case store hr => exact .store hr
  case fault t _ => exact .fault t

-- The instruction that a machine is about to execute. There is none at a zero word, which halts it.
def next (m : Machine) : Except Trap (Option Instr) :=
  let pc := m.hart.pc
  if pc &&& 3 ≠ 0 then .error (.misalignedFetch pc)
  else match m.space.fetch pc with
  | .error e => .error (.memory pc e)
  | .ok raw =>
    if raw = 0 then .ok none
    else match Instr.decode raw with
    | none => .error (.invalidInstr pc raw)
    | some i => .ok (some i)

-- The machine whose hart is past the instruction that it is about to execute.
def past (m : Machine) : Machine :=
  { m with hart := m.hart.jump (m.hart.pc + 4) }

theorem step_eq (m : Machine) :
    m.step = match m.next with
      | .error t => (.error t, m)
      | .ok none => (.ok .halted, m)
      | .ok (some i) => m.past.exec m.hart.pc i := by
  by_cases hp : m.hart.pc &&& 3 ≠ 0
  case pos => simp only [step, next, if_pos hp]
  case neg =>
  cases hf : m.space.fetch m.hart.pc
  case error => simp only [step, next, if_neg hp, hf]
  case ok raw =>
  by_cases hr : raw = 0
  case pos => simp only [step, next, if_neg hp, hf, if_pos hr]
  case neg =>
  cases hd : Instr.decode raw
  case none => simp only [step, next, if_neg hp, hf, if_neg hr, hd]
  case some => simp only [step, next, if_neg hp, hf, if_neg hr, hd, past]

theorem exists_of_next_eq_some (h : m.next = .ok (some i)) :
    ∃ raw, m.space.fetch m.hart.pc = .ok raw ∧ Instr.decode raw = some i := by
  unfold next at h
  grind

-- Whether the next step executes an instruction.
def executes (m : Machine) : Bool :=
  match m.step.fst with
  | .ok .retired => true
  | .ok .ecall => true
  | _ => false

theorem next_of_executes (h : m.executes) : ∃ i, m.next = .ok (some i) := by
  unfold executes at h
  rw [step_eq] at h
  grind

theorem retired_step (m : Machine) :
    m.step.snd.hart.retired = m.hart.retired + m.executes.toNat := by
  unfold executes
  rw [step_eq]
  split
  case h_1 => rfl
  case h_2 => rfl
  case h_3 i _ =>
    have h := m.past.effect_exec m.hart.pc i
    generalize m.past.exec m.hart.pc i = r at h
    cases h
    case retire s hs hr =>
      cases s
      case halted  => exact absurd rfl hs
      case retired => exact hr
      case ecall   => exact hr
    case store => rfl
    case fault => rfl

end Machine

end RV32IM
