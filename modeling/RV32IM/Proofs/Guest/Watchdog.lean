import RV32IM.Proofs.Guest.Drive

-- Budgets. The watchdog of a hart has no part in what its instructions do, so a run that was cut
-- off can be taken up again, and two budgets are as good as their sum.

namespace RV32IM

-- The outcome of a run that went on after so many instructions.
def Outcome.delay (n : Nat) : Outcome → Outcome
  | watchdogExpired executed => watchdogExpired (n + executed)
  | o => o

namespace Machine

def withWatchdog (n : Nat) (m : Machine) : Machine :=
  { m with hart := { m.hart with watchdog := n } }

theorem exec_withWatchdog (n : Nat) (m : Machine) (pc : Word) (i : Instr) :
    (m.withWatchdog n).exec pc i = (m.exec pc i).map id (withWatchdog n) := by
  cases hf : i.op.format
  all_goals simp only [exec, hf, withWatchdog]
  case load => split <;> rfl
  case store => split <;> rfl
  case imm => split <;> rfl
  case branch =>
    by_cases h : i.op.taken (m.hart.regs.get i.rs1) (m.hart.regs.get i.rs2)
    all_goals simp only [retire, h]; rfl
  case system => split <;> rfl
  all_goals rfl

theorem step_withWatchdog (n : Nat) (m : Machine) :
    (m.withWatchdog n).step = m.step.map id (withWatchdog n) := by
  have hn : (m.withWatchdog n).next = m.next := rfl
  rw [step_eq, step_eq, hn]
  split
  case h_1 => rfl
  case h_2 => rfl
  case h_3 => exact exec_withWatchdog n m.past ..

end Machine

namespace Guest

variable {η σ : Type}

def withWatchdog (n : Nat) (g : Guest η σ) : Guest η σ :=
  { g with machine := g.machine.withWatchdog n }

theorem answer_withWatchdog (n : Nat) (pc : Word) (hart : Hart) (space : AddressSpace)
    (os : Os η σ) : (r : Except MemoryError Word) →
      answer pc ⟨{ hart with watchdog := n }, space⟩ os r =
        (answer pc ⟨hart, space⟩ os r).map id (withWatchdog n)
  | .ok _    => rfl
  | .error _ => rfl

variable {g g' : Guest η σ}

theorem resume_of_exit (hg : g.machine.hart.exit = none) : g.resume = g := by
  simp only [resume, ← hg]

variable [HostInterface η σ]

theorem serve_withWatchdog (n : Nat) (g : Guest η σ) :
    (g.withWatchdog n).serve = g.serve.map id (withWatchdog n) := by
  simp only [serve_eq, withWatchdog, Machine.withWatchdog]
  split_ifs
  case pos => rfl
  case pos => exact answer_withWatchdog ..
  case pos => exact answer_withWatchdog ..
  case pos => exact answer_withWatchdog ..
  case pos => exact answer_withWatchdog ..
  case neg => rfl

theorem step_withWatchdog (n : Nat) (g : Guest η σ) :
    (g.withWatchdog n).step = g.step.map id (withWatchdog n) := by
  obtain ⟨m, os⟩ := g
  simp only [step, withWatchdog, Machine.step_withWatchdog]
  obtain ⟨r, m⟩ := m.step
  cases r
  case error => rfl
  case ok r =>
  cases r
  case halted  => rfl
  case retired => rfl
  case ecall =>
    have hs := serve_withWatchdog n ⟨m, os⟩
    simp only [withWatchdog] at hs
    simp only [Prod.map, id, hs]
    obtain ⟨r, g⟩ := serve ⟨m, os⟩
    cases r
    case error => rfl
    case ok    => rfl

theorem runFor_withWatchdog (n executed budget : Nat) (g : Guest η σ) :
    runFor executed budget (g.withWatchdog n) =
      (runFor executed budget g).map id (withWatchdog n) := by
  fun_induction runFor executed budget g
  case case1 => rfl
  case case2 h => simp only [runFor, step_withWatchdog, h]; rfl
  case case3 h => simp only [runFor, step_withWatchdog, h]; rfl
  case case4 h ih => simp only [runFor, step_withWatchdog, h]; exact ih

theorem run_withWatchdog (n : Nat) (g : Guest η σ) :
    (g.withWatchdog n).run = (runFor 0 n g.resume).map id (withWatchdog n) :=
  runFor_withWatchdog n 0 n g.resume

theorem ok_of_step {o : Option Outcome} (h : g.step = (.ok o, g')) :
    o = some .halted ∨ g.machine.executes ∧ o = g'.machine.hart.exit.map .exited := by
  cases effect_of_step h
  case halt      => exact .inl rfl
  case retire he => exact .inr ⟨he, rfl⟩
  case serve he  => exact .inr ⟨he, rfl⟩

theorem delay_of_step {o : Outcome} (h : g.step = (.ok (some o), g')) (n : Nat) :
    o.delay n = o := by
  obtain ho | ⟨-, ho⟩ := ok_of_step h
  case inl => cases ho; rfl
  case inr =>
    obtain ⟨_, _, rfl⟩ := Option.map_eq_some_iff.mp ho.symm
    rfl

theorem runFor_delay (n executed budget : Nat) (g : Guest η σ) :
    runFor (n + executed) budget g = (runFor executed budget g).map (·.map (.delay n)) id := by
  fun_induction runFor executed budget g
  case case1 => rfl
  case case2 h => simp only [runFor, h]; rfl
  case case3 h => simp only [runFor, h, Prod.map, Except.map, delay_of_step h]; rfl
  case case4 h ih => simp only [runFor, h]; exact ih

-- Runs that the watchdog cuts off.
theorem runFor_of_expired {executed a n : Nat} (hg : g.machine.hart.exit = none)
    (h : runFor executed a g = (.ok (.watchdogExpired n), g')) (b : Nat) :
    n = executed + a ∧ g'.machine.hart.retired = g.machine.hart.retired + a ∧
      g'.machine.hart.exit = none ∧ runFor executed (a + b) g = runFor n b g' := by
  fun_induction runFor executed a g
  case case1 => cases h; exact ⟨rfl, rfl, hg, by rw [Nat.zero_add]⟩
  case case2 => cases h
  case case3 hs =>
    cases h
    exact absurd (delay_of_step hs 1) (by simp [Outcome.delay])
  case case4 executed a g g₁ hs ih =>
    obtain ho | ⟨he, ho⟩ := ok_of_step hs
    case inl => cases ho
    case inr =>
    obtain ⟨hn, hr, hx, hb⟩ := ih (Option.map_eq_none_iff.mp ho.symm) h
    rw [retired_of_step hs, he] at hr
    refine ⟨?_, ?_, hx, ?_⟩
    case refine_1 => omega
    case refine_2 => simp only [Bool.toNat_true] at hr; omega
    case refine_3 => rw [Nat.succ_add, runFor, hs]; exact hb

theorem runFor_of_ended {executed a : Nat} {r : Except Trap Outcome}
    (h : runFor executed a g = (r, g')) (hr : ∀ n, r ≠ .ok (.watchdogExpired n)) (b : Nat) :
    runFor executed (a + b) g = (r, g') := by
  fun_induction runFor executed a g
  case case1 => cases h; exact absurd rfl (hr _)
  case case2 hs => cases h; rw [Nat.succ_add, runFor, hs]
  case case3 hs => cases h; rw [Nat.succ_add, runFor, hs]
  case case4 hs ih => rw [Nat.succ_add, runFor, hs]; exact ih h

-- What a run that was cut off would have done with a larger budget.
theorem run_of_expired {a n : Nat} (h : (g.withWatchdog a).run = (.ok (.watchdogExpired n), g'))
    (b : Nat) :
    n = a ∧ g'.machine.hart.retired = g.machine.hart.retired + a ∧ g'.machine.hart.exit = none ∧
      (g.withWatchdog (a + b)).run =
        (g'.withWatchdog b).run.map (·.map (.delay a)) (withWatchdog (a + b)) := by
  rw [run_withWatchdog] at h
  generalize hr : runFor 0 a g.resume = x at h
  obtain ⟨r, g₁⟩ := x
  cases h
  obtain ⟨hn, hretired, hexit, hrun⟩ := runFor_of_expired rfl hr b
  obtain rfl : n = a := hn.trans (Nat.zero_add a)
  have hresume : (g₁.withWatchdog n).resume = g₁.withWatchdog n := resume_of_exit hexit
  refine ⟨rfl, hretired, hexit, ?_⟩
  calc (g.withWatchdog (n + b)).run
    _ = (runFor 0 (n + b) g.resume).map id (withWatchdog (n + b)) := run_withWatchdog ..
    _ = (runFor n b g₁).map id (withWatchdog (n + b)) := by rw [hrun]
    _ = (runFor 0 b g₁).map (·.map (.delay n)) (withWatchdog (n + b)) := by
      rw [← n.add_zero, runFor_delay n 0]; rfl
    _ = ((g₁.withWatchdog n).withWatchdog b).run.map (·.map (.delay n)) (withWatchdog (n + b)) := by
      rw [run_withWatchdog, hresume, runFor_withWatchdog]; rfl

theorem run_of_ended {a : Nat} {r : Except Trap Outcome} (h : (g.withWatchdog a).run = (r, g'))
    (hr : ∀ n, r ≠ .ok (.watchdogExpired n)) (b : Nat) :
    (g.withWatchdog (a + b)).run = (r, g'.withWatchdog (a + b)) := by
  rw [run_withWatchdog] at h ⊢
  generalize hg : runFor 0 a g.resume = x at h
  obtain ⟨r, g₁⟩ := x
  cases h
  rw [runFor_of_ended hg hr b]
  rfl

-- One more instruction that asks to exit is not taken for an expiry.
theorem run_of_exit {m : Machine} (hg : g.machine.hart.exit = none)
    (hm : g.machine.step = (.ok .ecall, m)) (h : m.hart.regs.get .a7 = 0) :
    (g.withWatchdog 1).run.fst = .ok (.exited (m.hart.regs.get .a0)) := by
  rw [run_withWatchdog, resume_of_exit hg]
  simp only [runFor, step, hm, serve_eq, h, if_pos]
  rfl

theorem run_add (g : Guest η σ) (a b : Nat) :
    (∀ n g', (g.withWatchdog a).run = (.ok (.watchdogExpired n), g') →
      n = a ∧ g'.machine.hart.retired = g.machine.hart.retired + a ∧
        g'.machine.hart.exit = none ∧
        (g.withWatchdog (a + b)).run =
          (g'.withWatchdog b).run.map (·.map (.delay a)) (withWatchdog (a + b)) ∧
        ∀ m, g'.machine.step = (.ok .ecall, m) → m.hart.regs.get .a7 = 0 →
          (g.withWatchdog (a + 1)).run.fst = .ok (.exited (m.hart.regs.get .a0))) ∧
      ∀ r g', (g.withWatchdog a).run = (r, g') → (∀ n, r ≠ .ok (.watchdogExpired n)) →
        (g.withWatchdog (a + b)).run = (r, g'.withWatchdog (a + b)) := by
  refine ⟨fun n g' h => ?_, fun r g' h hr => run_of_ended h hr b⟩
  obtain ⟨hn, hretired, hexit, hrun⟩ := run_of_expired h b
  refine ⟨hn, hretired, hexit, hrun, fun m hm h₀ => ?_⟩
  obtain ⟨-, -, -, hrun₁⟩ := run_of_expired h 1
  simp only [hrun₁, Prod.map, run_of_exit hexit hm h₀]
  rfl

-- The last of the two instructions in the budget asks to exit.
theorem run_add_sample :
    ((sample 7).withWatchdog 1).run.fst = .ok (.watchdogExpired 1) ∧
      ((sample 7).withWatchdog (1 + 1)).run.fst = .ok (.exited 5) ∧
      ((sample 7).withWatchdog (2 + 3)).run =
        (.ok (.exited 5), ((sample 7).withWatchdog 2).run.snd.withWatchdog (2 + 3)) := by
  have hexpired : ((sample 7).withWatchdog 1).run.fst = .ok (.watchdogExpired 1) := by rfl
  have hexited : ((sample 7).withWatchdog 2).run.fst = .ok (.exited 5) := by rfl
  have hecall : ((sample 7).withWatchdog 1).run.snd.machine.step.fst = .ok .ecall := by rfl
  obtain ⟨-, -, -, -, hlast⟩ :=
    (run_add (sample 7) 1 1).left 1 _ (Prod.ext hexpired rfl)
  refine ⟨hexpired, hlast _ (Prod.ext hecall rfl) (by decide +kernel), ?_⟩
  exact (run_add (sample 7) 2 3).right _ _ (Prod.ext hexited rfl) (by simp)

end Guest

end RV32IM
