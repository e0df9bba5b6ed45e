import Mathlib
import RV32IM.Guest
import RV32IM.Proofs.Machine.Step
import RV32IM.Proofs.Os.Memory

-- One instruction of a guest with the request that it makes. What a request is by its number, and
-- what it leaves of the machine.

namespace RV32IM

namespace Os

section Trap

variable {η σ β : Type} [Bus β] [HostInterface η σ] {os : Os η σ} {hart : Hart} {bus : β}

theorem trap_of_exit (h : hart.regs.get .a7 = 0) :
    os.trap hart bus = (.ok (), hart.stop (hart.regs.get .a0), bus, os) := by
  simp [trap, h]

theorem trap_of_write (h : hart.regs.get .a7 = 1) :
    let r := os.write bus (hart.regs.get .a0) (hart.regs.get .a1) (hart.regs.get .a2).toNat
    os.trap hart bus = answer (hart.pc - 4) hart bus r.2 r.1 := by
  simp [trap, h]

theorem trap_of_read (h : hart.regs.get .a7 = 2) :
    let r := os.read bus (hart.regs.get .a0) (hart.regs.get .a1) (hart.regs.get .a2).toNat
    os.trap hart bus = answer (hart.pc - 4) hart r.2.1 r.2.2 r.1 := by
  simp [trap, h]

theorem trap_of_open (h : hart.regs.get .a7 = 3) :
    let r := os.openFile bus (hart.regs.get .a0) (hart.regs.get .a1)
    os.trap hart bus = answer (hart.pc - 4) hart bus r.2 r.1 := by
  simp [trap, h]

theorem trap_of_close (h : hart.regs.get .a7 = 4) :
    let r := os.close (hart.regs.get .a0)
    os.trap hart bus = (.ok (), hart.setReg .a0 r.1, bus, r.2) := by
  simp [trap, h, answer]

theorem trap_of_unknown (h : hart.regs.get .a7 ∉ [0, 1, 2, 3, 4]) :
    os.trap hart bus =
      (.error (.unknownSyscall (hart.pc - 4) (hart.regs.get .a7)), hart, bus, os) := by
  simp only [List.mem_cons, List.not_mem_nil, or_false, not_or] at h
  obtain ⟨h₀, h₁, h₂, h₃, h₄⟩ := h
  unfold trap
  dsimp only
  rw [if_neg h₀, if_neg h₁, if_neg h₂, if_neg h₃, if_neg h₄]

end Trap

end Os

namespace Guest

variable {η σ : Type}

-- A guest whose machine has taken a step. A request that it makes has yet to be served.
def advance (g : Guest η σ) : Guest η σ :=
  { g with machine := g.machine.step.snd }

-- What serving a request keeps.
structure Serves (g g' : Guest η σ) : Prop where
  retired : g'.machine.hart.retired = g.machine.hart.retired
  space   : g.machine.space.Alike Access.ReadOnly g'.machine.space

theorem serves_answer {hart : Hart} {space space' : AddressSpace} {os os' : Os η σ} {pc : Word}
    (h : space.Alike Access.ReadOnly space') :
    (r : Except MemoryError Word) → Serves ⟨⟨hart, space⟩, os⟩ (answer pc ⟨hart, space'⟩ os' r).snd
  | .ok _    => ⟨rfl, h⟩
  | .error _ => ⟨rfl, h⟩

variable [HostInterface η σ]

-- What serving a request is, by its number.
theorem serve_eq (g : Guest η σ) :
    g.serve =
      let m := g.machine
      let pc := m.hart.pc - 4
      let a0 := m.hart.regs.get .a0
      let a1 := m.hart.regs.get .a1
      let a2 := m.hart.regs.get .a2
      if m.hart.regs.get .a7 = 0 then (.ok (), ⟨{ m with hart := m.hart.stop a0 }, g.os⟩)
      else if m.hart.regs.get .a7 = 1 then
        let r := g.os.write m.space a0 a1 a2.toNat
        answer pc m r.2 r.1
      else if m.hart.regs.get .a7 = 2 then
        let r := g.os.read m.space a0 a1 a2.toNat
        answer pc ⟨m.hart, r.2.1⟩ r.2.2 r.1
      else if m.hart.regs.get .a7 = 3 then
        let r := g.os.openFile m.space a0 a1
        answer pc m r.2 r.1
      else if m.hart.regs.get .a7 = 4 then
        let r := g.os.close a0
        answer pc m r.2 (.ok r.1)
      else (.error (.unknownSyscall pc (m.hart.regs.get .a7)), g) := by
  dsimp only [serve, Os.trap]
  split_ifs <;> rfl

theorem serves_serve (g : Guest η σ) : Serves g g.serve.snd := by
  obtain ⟨⟨hart, space⟩, os⟩ := g
  have hs := AddressSpace.Alike.refl Access.ReadOnly space
  rw [serve_eq]
  dsimp only
  split_ifs
  case pos => exact ⟨rfl, hs⟩
  case pos => exact serves_answer hs _
  case pos => exact serves_answer (os.alike_read ..) _
  case pos => exact serves_answer hs _
  case pos => exact serves_answer hs _
  case neg => exact ⟨rfl, hs⟩

-- What one instruction gives. A request is served in the step that makes it.
inductive Effect (g : Guest η σ) : Except Trap (Option Outcome) × Guest η σ → Prop
  | fault (t : Trap) : Effect g (.error t, g.advance)
  | halt : Effect g (.ok (some .halted), g.advance)
  | retire (h : g.machine.executes) :
    Effect g (.ok (g.advance.machine.hart.exit.map .exited), g.advance)
  | refuse (t : Trap) : Effect g (.error t, g.advance.serve.snd)
  | serve (h : g.machine.executes) :
    Effect g (.ok (g.advance.serve.snd.machine.hart.exit.map .exited), g.advance.serve.snd)

theorem effect_step (g : Guest η σ) : Effect g g.step := by
  obtain ⟨m, os⟩ := g
  unfold step
  dsimp only
  split
  case h_1 t m' h =>
    obtain rfl : m.step.snd = m' := congrArg Prod.snd h
    exact .fault t
  case h_2 m' h =>
    obtain rfl : m.step.snd = m' := congrArg Prod.snd h
    exact .halt
  case h_3 m' h =>
    obtain rfl : m.step.snd = m' := congrArg Prod.snd h
    exact .retire (by rw [Machine.executes, h])
  case h_4 m' h =>
  obtain rfl : m.step.snd = m' := congrArg Prod.snd h
  split
  case h_1 t g' hs =>
    obtain rfl : (serve ⟨m.step.snd, os⟩).snd = g' := congrArg Prod.snd hs
    exact .refuse t
  case h_2 g' hs =>
    obtain rfl : (serve ⟨m.step.snd, os⟩).snd = g' := congrArg Prod.snd hs
    exact .serve (by rw [Machine.executes, h])

variable {g g' : Guest η σ} {r : Except Trap (Option Outcome)}

theorem effect_of_step (h : g.step = (r, g')) : Effect g (r, g') :=
  h ▸ g.effect_step

theorem retired_of_step (h : g.step = (r, g')) :
    g'.machine.hart.retired = g.machine.hart.retired + g.machine.executes.toNat := by
  have ha : g.advance.machine.hart.retired = _ := g.machine.retired_step
  cases effect_of_step h
  case fault  => exact ha
  case halt   => exact ha
  case retire => exact ha
  case refuse => exact g.advance.serves_serve.retired.trans ha
  case serve  => exact g.advance.serves_serve.retired.trans ha

end Guest

end RV32IM
