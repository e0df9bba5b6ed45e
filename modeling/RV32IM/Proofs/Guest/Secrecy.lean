import RV32IM.Proofs.Guest.Drive

-- Secrecy. Bytes that a program may neither read nor execute have no influence on what it does: two
-- guests that differ in nothing else act alike, and go on to differ in nothing else.

namespace RV32IM

variable {α β : Type} {s s' : AddressSpace}

namespace Machine

-- Results that are one but for memory that a program can neither read nor execute.
inductive Agree : α × Machine → α × Machine → Prop
  | intro {r : α} {hart : Hart} {s s' : AddressSpace} (h : s.Alike Access.Visible s') :
    Agree (r, ⟨hart, s⟩) (r, ⟨hart, s'⟩)

theorem agree_exec (h : s.Alike Access.Visible s') (hart : Hart) (pc : Word) (i : Instr) :
    Agree (exec ⟨hart, s⟩ pc i) (exec ⟨hart, s'⟩ pc i) := by
  cases hf : i.op.format
  all_goals simp only [exec, hf]
  case load =>
    rw [h.load_eq]
    split
    case h_1 => exact .intro h
    case h_2 => exact .intro h
  case store =>
    generalize hart.regs.get i.rs1 + i.imm = addr
    generalize (hart.regs.get i.rs2).toBytes.take i.op.accessWidth = bs
    obtain ⟨r, r', hc, hc', _⟩ | ⟨e, hc, hc'⟩ := h.check addr bs.length .write
    case inl => simpa only [hc, hc'] using .intro (h.overwrite ..)
    case inr => simpa only [hc, hc'] using .intro h
  case imm =>
    split
    all_goals exact .intro h
  case system =>
    split
    all_goals exact .intro h
  all_goals exact .intro h

theorem agree_step (h : s.Alike Access.Visible s') (hart : Hart) :
    Agree (step ⟨hart, s⟩) (step ⟨hart, s'⟩) := by
  have hn : next ⟨hart, s'⟩ = next ⟨hart, s⟩ := by simp only [next, h.fetch_eq]
  rw [step_eq, step_eq, hn]
  split
  case h_1 => exact .intro h
  case h_2 => exact .intro h
  case h_3 => exact agree_exec h ..

end Machine

namespace Guest

variable {η σ : Type}

inductive Agree : α × Guest η σ → α × Guest η σ → Prop
  | intro {r : α} {hart : Hart} {os : Os η σ} {s s' : AddressSpace}
    (h : s.Alike Access.Visible s') : Agree (r, ⟨⟨hart, s⟩, os⟩) (r, ⟨⟨hart, s'⟩, os⟩)

theorem Agree.map {x x' : α × Guest η σ} (f : α → β) (h : Agree x x') :
    Agree (f x.fst, x.snd) (f x'.fst, x'.snd) := by
  cases h
  case intro h => exact .intro h

theorem agree_answer (h : s.Alike Access.Visible s') (pc : Word) (hart : Hart) (os : Os η σ) :
    (r : Except MemoryError Word) → Agree (answer pc ⟨hart, s⟩ os r) (answer pc ⟨hart, s'⟩ os r)
  | .ok _    => .intro h
  | .error _ => .intro h

variable [HostInterface η σ]

theorem agree_serve (h : s.Alike Access.Visible s') (hart : Hart) (os : Os η σ) :
    Agree (serve ⟨⟨hart, s⟩, os⟩) (serve ⟨⟨hart, s'⟩, os⟩) := by
  simp only [serve_eq, Os.write_eq h, Os.openFile_eq h]
  split_ifs
  case pos => exact .intro h
  case pos => exact agree_answer h ..
  case pos =>
    obtain ⟨hr, hs, hos⟩ := os.read_alike h (hart.regs.get .a0) (hart.regs.get .a1)
      (hart.regs.get .a2).toNat
    rw [hr, hos]
    exact agree_answer hs ..
  case pos => exact agree_answer h ..
  case pos => exact agree_answer h ..
  case neg => exact .intro h

theorem agree_step (h : s.Alike Access.Visible s') (hart : Hart) (os : Os η σ) :
    Agree (step ⟨⟨hart, s⟩, os⟩) (step ⟨⟨hart, s'⟩, os⟩) := by
  have hm := Machine.agree_step h hart
  simp only [step]
  generalize Machine.step ⟨hart, s⟩ = x at hm ⊢
  generalize Machine.step ⟨hart, s'⟩ = x' at hm ⊢
  cases hm
  case intro r hart s s' h =>
  cases r
  case error => exact .intro h
  case ok r =>
  cases r
  case halted  => exact .intro h
  case retired => exact .intro h
  case ecall =>
    have hg := agree_serve h hart os
    dsimp only
    generalize serve ⟨⟨hart, s⟩, os⟩ = x at hg ⊢
    generalize serve ⟨⟨hart, s'⟩, os⟩ = x' at hg ⊢
    cases hg
    case intro r hart os s s' h =>
    cases r
    case error => exact .intro h
    case ok    => exact .intro h

theorem agree_runFor (h : s.Alike Access.Visible s') (n budget : Nat) (hart : Hart) (os : Os η σ) :
    Agree (runFor n budget ⟨⟨hart, s⟩, os⟩) (runFor n budget ⟨⟨hart, s'⟩, os⟩) := by
  induction budget generalizing n hart os s s'
  case zero => exact .intro h
  case succ budget ih =>
    have hg := agree_step h hart os
    unfold runFor
    generalize step ⟨⟨hart, s⟩, os⟩ = x at hg ⊢
    generalize step ⟨⟨hart, s'⟩, os⟩ = x' at hg ⊢
    cases hg
    case intro r hart os s s' h =>
    cases r
    case error => exact .intro h
    case ok o =>
    cases o
    case some => exact .intro h
    case none => exact ih h ..

theorem agree_act (h : s.Alike Access.Visible s') (hart : Hart) (os : Os η σ) : (mv : Move) →
    Agree (act ⟨⟨hart, s⟩, os⟩ mv) (act ⟨⟨hart, s'⟩, os⟩ mv)
  | .step  => by
    have hm := Machine.agree_step h hart
    simp only [act, advance]
    generalize Machine.step ⟨hart, s⟩ = x at hm ⊢
    generalize Machine.step ⟨hart, s'⟩ = x' at hm ⊢
    cases hm
    case intro h => exact .intro h
  | .serve => (agree_serve h hart os).map Report.served
  | .run   => (agree_runFor h 0 hart.watchdog { hart with exit := none } os).map Report.ran

-- Whatever moves are made, their reports are the same, and so are the registers, the counters, the
-- handles and the host in the end.
theorem agree_drive (h : s.Alike Access.Visible s') (mvs : List Move) (hart : Hart) (os : Os η σ) :
    Agree (drive mvs ⟨⟨hart, s⟩, os⟩) (drive mvs ⟨⟨hart, s'⟩, os⟩) := by
  induction mvs generalizing hart os s s'
  case nil => exact .intro h
  case cons mv mvs ih =>
    have hg := agree_act h hart os mv
    unfold drive
    generalize act ⟨⟨hart, s⟩, os⟩ mv = x at hg ⊢
    generalize act ⟨⟨hart, s'⟩, os⟩ mv = x' at hg ⊢
    cases hg
    case intro r hart os s s' h => exact (ih h hart os).map (r :: ·)

theorem agree_drive_sample :
    (sample 7).machine.space.byte? 0x2000 ≠ (sample 8).machine.space.byte? 0x2000 ∧
      (sample 7).machine.space.Alike Access.Visible (sample 8).machine.space ∧
      (drive [.step, .run] (sample 7)).fst = [.stepped (.ok .retired), .ran (.ok (.exited 5))] ∧
      Agree (drive [.step, .run] (sample 7)) (drive [.step, .run] (sample 8)) := by
  have h : (sample 7).machine.space.Alike Access.Visible (sample 8).machine.space :=
    .cons ⟨rfl, rfl, rfl, rfl, by decide⟩ (.cons ⟨rfl, .refl ..⟩ .nil)
  have hreports : (drive [.step, .run] (sample 7)).fst =
      [.stepped (.ok .retired), .ran (.ok (.exited 5))] := by rfl
  exact ⟨by decide +kernel, h, hreports, agree_drive h _ (sample 7).machine.hart (sample 7).os⟩

end Guest

end RV32IM
