import Mathlib
import RV32IM.Proofs.Machine.Step
import RV32IM.Proofs.Memory.Bytes

-- What a step leaves alone. Of the registers it changes at most the destination of the instruction,
-- only a store changes memory, and only where it stores. A fault keeps all of that, and names the
-- instruction at fault.

namespace RV32IM.Machine

variable {m : Machine} {i : Instr}

-- What a step leaves alone.
structure Precise (m : Machine) (s : Except Trap Step × Machine) : Prop where
  -- Of the registers only the destination changes, and never register zero.
  regs : ∀ n : Fin 32, s.2.hart.regs.cells.get n ≠ m.hart.regs.cells.get n →
    ∃ i, m.next = .ok (some i) ∧ n = i.rd.index.toFin ∧ n ≠ 0
  -- Memory changes only by a store, and only where it stores.
  space : s.2.space = m.space ∨
    ∃ i n, m.next = .ok (some i) ∧ i.op.stored? = some n ∧
      m.space.Alike Access.ReadOnly s.2.space ∧
      ∀ a, ¬a.Within (m.hart.regs.get i.rs1 + i.imm) n → s.2.space.byte? a = m.space.byte? a
  exit : s.2.hart.exit = m.hart.exit
  watchdog : s.2.hart.watchdog = m.hart.watchdog
  retired : s.2.hart.retired =
    m.hart.retired + if s.1 = .ok .retired ∨ s.1 = .ok .ecall then 1 else 0
  halted : s.1 = .ok .halted → s.2 = m
  -- A fault before execution keeps the pc, and one in execution leaves it past the instruction.
  fault : ∀ t, s.1 = .error t → t.pc = m.hart.pc ∧
    (m.next = .error t ∧ s.2 = m ∨
      ∃ i, m.next = .ok (some i) ∧ s.2 = { m with hart := m.hart.jump (m.hart.pc + 4) })

theorem pc_of_next_eq_error {t : Trap} (h : m.next = .error t) : t.pc = m.hart.pc := by
  unfold next at h
  grind [Trap.pc]

theorem precise_of_error {t : Trap} (h : m.next = .error t) : m.Precise (.error t, m) where
  regs _ hn := absurd rfl hn
  space := .inl rfl
  exit := rfl
  watchdog := rfl
  retired := by simp
  halted := nofun
  fault t' ht := by
    cases ht
    exact ⟨pc_of_next_eq_error h, .inl ⟨h, rfl⟩⟩

theorem precise_of_halted (m : Machine) : m.Precise (.ok .halted, m) where
  regs _ hn := absurd rfl hn
  space := .inl rfl
  exit := rfl
  watchdog := rfl
  retired := by simp
  halted _ := rfl
  fault := nofun

theorem Change.precise {r : Except Trap Step × Machine} (hi : m.next = .ok (some i))
    (h : m.past.Change m.hart.pc i r) : m.Precise r := by
  cases h
  case retire h s hs hh =>
    constructor
    case regs =>
      intro n hn
      obtain ⟨hrd, hz⟩ := hh.regs n hn
      exact ⟨i, hi, hrd, hz⟩
    case space => exact .inl rfl
    case exit => exact hh.exit
    case watchdog => exact hh.watchdog
    case retired =>
      have hr : h.retired = m.hart.retired + 1 := hh.retired
      cases s
      case halted => exact absurd rfl hs
      all_goals simpa using hr
    case halted => exact fun h => absurd (Except.ok.inj h) hs
    case fault => rintro _ ⟨⟩
  case store bs r hn hr =>
    constructor
    case regs => exact fun _ hn => absurd rfl hn
    case space =>
      exact .inr ⟨i, _, hi, hn, .overwrite_of_check hr, fun _ =>
        AddressSpace.byte?_overwrite_of_not_within hr⟩
    case exit => rfl
    case watchdog => rfl
    case retired => simp [Hart.retire, past, Hart.jump]
    case halted => rintro ⟨⟩
    case fault => rintro _ ⟨⟩
  case fault t ht =>
    constructor
    case regs => exact fun _ hn => absurd rfl hn
    case space => exact .inl rfl
    case exit => rfl
    case watchdog => rfl
    case retired => simp [past, Hart.jump]
    case halted => rintro ⟨⟩
    case fault =>
      intro t' ht'
      cases ht'
      exact ⟨ht, .inr ⟨i, hi, rfl⟩⟩

-- Every step is precise.
theorem step_precise (m : Machine) : m.Precise m.step := by
  rw [step_eq]
  split
  case h_1 h => exact precise_of_error h
  case h_2 => exact m.precise_of_halted
  case h_3 i h => exact (m.past.change_exec m.hart.pc i).precise h

end RV32IM.Machine
