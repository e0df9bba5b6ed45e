import RV32IM.Proofs.Guest.Drive

-- Memory protection. Whatever a program does, memory that it may not write stays as it is, and it
-- executes nothing but what memory lets it execute.

namespace RV32IM

namespace Machine

variable {m : Machine}

theorem alike_exec (m : Machine) (pc : Word) (i : Instr) :
    m.space.Alike Access.ReadOnly (m.exec pc i).snd.space := by
  have h := m.effect_exec pc i
  generalize m.exec pc i = r at h
  cases h
  case retire   => exact .refl _ m.space
  case store hc => exact .overwrite_of_check hc
  case fault    => exact .refl _ m.space

theorem alike_step (m : Machine) : m.space.Alike Access.ReadOnly m.step.snd.space := by
  rw [step_eq]
  split
  case h_1 => exact .refl _ m.space
  case h_2 => exact .refl _ m.space
  case h_3 => exact m.past.alike_exec m.hart.pc _

-- Whether a machine executes next what one region holds that may be executed.
structure ExecutesFrom (m : Machine) (r : Region) : Prop where
  mem    : r ∈ m.space.regions
  access : r.access.allows .execute
  covers : r.Covers m.hart.pc 4
  step   : ∃ i, Instr.decode (.ofBytes (r.read m.hart.pc 4)) = some i ∧
    m.step = m.past.exec m.hart.pc i

theorem exists_executesFrom (h : m.executes) : ∃ r, m.ExecutesFrom r := by
  obtain ⟨i, hi⟩ := next_of_executes h
  obtain ⟨raw, hf, hd⟩ := exists_of_next_eq_some hi
  obtain ⟨r, hr, ha, hc, rfl⟩ := AddressSpace.exists_of_fetch_eq_ok hf
  exact ⟨r, hr, ha, hc, i, hd, by rw [step_eq, hi]⟩

end Machine

namespace Guest

variable {η σ : Type} [HostInterface η σ] {g g' : Guest η σ}

theorem Transition.alike (h : Transition g g') :
    g.machine.space.Alike Access.ReadOnly g'.machine.space := by
  cases h
  case step   => exact g.machine.alike_step
  case serve  => exact g.serves_serve.space
  case resume => exact .refl _ g.machine.space

theorem Reaches.alike (h : g.Reaches g') :
    g.machine.space.Alike Access.ReadOnly g'.machine.space := by
  induction h
  case refl      => exact .refl _ g.machine.space
  case tail h ih => exact ih.trans h.alike

-- The regions stay, with all they hold where it may not be written, and the history accounts for
-- every instruction that retires, each from one region that may be executed.
theorem drive_protected (mvs : List Move) (g : Guest η σ) :
    g.machine.space.Alike Access.ReadOnly (drive mvs g).snd.machine.space ∧
      (drive mvs g).snd.machine.hart.retired =
        g.machine.hart.retired + executed (history mvs g) ∧
      ∀ s ∈ history mvs g, g.machine.space.Alike Access.ReadOnly s.machine.space ∧
        (s.machine.executes → ∃ r, s.machine.ExecutesFrom r) :=
  ⟨(reaches_drive mvs g).alike, retired_drive mvs g, fun _ hs =>
    ⟨(reaches_of_mem_history hs).alike, Machine.exists_executesFrom⟩⟩

theorem drive_protected_sample :
    (drive [.run] (sample 7)).snd.machine.space.byte? 0x2000 = some 5 ∧
      (sample 7).machine.space.Alike Access.ReadOnly
        (drive [.run] (sample 7)).snd.machine.space ∧
      (drive [.run] (sample 7)).snd.machine.hart.retired = 2 ∧
      (sample 7).resume ∈ history [.run] (sample 7) ∧
      (sample 7).resume.machine.executes ∧
      ∃ r, (sample 7).resume.machine.ExecutesFrom r := by
  have ⟨hspace, hretired, hhistory⟩ := drive_protected [.run] (sample 7)
  have hcount : executed (history [.run] (sample 7)) = 2 := by decide +kernel
  have hmem : (sample 7).resume ∈ history [.run] (sample 7) := List.mem_cons_self
  have hexecutes : (sample 7).resume.machine.executes := by decide +kernel
  exact ⟨by decide +kernel, hspace, by rw [hretired, hcount]; rfl, hmem, hexecutes,
    (hhistory _ hmem).right hexecutes⟩

end Guest

end RV32IM
