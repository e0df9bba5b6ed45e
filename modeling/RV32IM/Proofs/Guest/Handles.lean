import RV32IM.Proofs.Guest.Drive
import RV32IM.Proofs.Os.Handles

-- Handles over whole runs. Requests are served one after the other, each with the table that the
-- one before it has left, and nothing else changes the table. So a number is handed out once, and
-- stands for the same file until it is closed.

namespace RV32IM.Guest

variable {η σ : Type}

def reg (g : Guest η σ) (r : Reg) : Word :=
  g.machine.hart.regs.get r

-- What a request leaves that gives the program a word, and touches nothing else but its handles.
def reply (g : Guest η σ) (w : Word) (os : Os η σ) : Guest η σ :=
  ⟨{ g.machine with hart := g.machine.hart.setReg .a0 w }, os⟩

theorem space_answer (pc : Word) (m : Machine) (os : Os η σ) :
    (r : Except MemoryError Word) → (answer pc m os r).snd.machine.space = m.space
  | .ok _    => rfl
  | .error _ => rfl

theorem os_answer (pc : Word) (m : Machine) (os : Os η σ) :
    (r : Except MemoryError Word) → (answer pc m os r).snd.os = os
  | .ok _    => rfl
  | .error _ => rfl

variable [HostInterface η σ]

-- Whether a request adds a slot, which is open, to the end of the table.
def Opens (g : Guest η σ) : Prop :=
  ∃ h, g.serve.snd.os.handles = g.os.handles.push (some h)

-- What serving a request does to the table of handles.
structure Handled (g : Guest η σ) : Prop where
  -- A number that is no handle cannot be written to, read from or closed.
  refused : g.reg .a7 = 1 ∨ g.reg .a7 = 2 ∨ g.reg .a7 = 4 → g.os.Lacks (g.reg .a0) →
    g.serve = (.ok (), g.reply (-1) g.os)
  transferred : g.reg .a7 = 1 ∨ g.reg .a7 = 2 → ¬g.os.Lacks (g.reg .a0) →
    g.os.Transfers (g.reg .a0).toNat g.serve.snd.os
  -- A file that is opened gets the next number, and one that is not changes no slot.
  opened : g.reg .a7 = 3 →
    g.Opens ∧ g.serve.fst = .ok () ∧ g.serve.snd.reg .a0 = .ofNat 32 g.os.handles.size ∨
      g.serve.snd.os.handles = g.os.handles ∧ (g.serve.fst = .ok () → g.serve.snd.reg .a0 = -1)
  closed : g.reg .a7 = 4 → ¬g.os.Lacks (g.reg .a0) →
    g.serve = (.ok (), g.reply 0 (g.os.without (g.reg .a0).toNat))
  other : g.reg .a7 ≠ 1 → g.reg .a7 ≠ 2 → g.reg .a7 ≠ 3 → g.reg .a7 ≠ 4 →
    g.serve.snd.os = g.os

section Serve

variable {g : Guest η σ}

theorem serve_of_write (h : g.reg .a7 = 1) :
    let r := g.os.write g.machine.space (g.reg .a0) (g.reg .a1) (g.reg .a2).toNat
    g.serve = answer (g.machine.hart.pc - 4) g.machine r.2 r.1 := by
  rw [serve, Os.trap_of_write h]
  rfl

theorem serve_of_read (h : g.reg .a7 = 2) :
    let r := g.os.read g.machine.space (g.reg .a0) (g.reg .a1) (g.reg .a2).toNat
    g.serve = answer (g.machine.hart.pc - 4) ⟨g.machine.hart, r.2.1⟩ r.2.2 r.1 := by
  rw [serve, Os.trap_of_read h]
  rfl

theorem serve_of_open (h : g.reg .a7 = 3) :
    let r := g.os.openFile g.machine.space (g.reg .a0) (g.reg .a1)
    g.serve = answer (g.machine.hart.pc - 4) g.machine r.2 r.1 := by
  rw [serve, Os.trap_of_open h]
  rfl

theorem serve_of_close (h : g.reg .a7 = 4) :
    g.serve = (.ok (), g.reply (g.os.close (g.reg .a0)).1 (g.os.close (g.reg .a0)).2) := by
  rw [serve, Os.trap_of_close h]
  rfl

theorem os_serve_of_other (h₁ : g.reg .a7 ≠ 1) (h₂ : g.reg .a7 ≠ 2) (h₃ : g.reg .a7 ≠ 3)
    (h₄ : g.reg .a7 ≠ 4) : g.serve.snd.os = g.os := by
  by_cases h₀ : g.reg .a7 = 0
  case pos =>
    rw [serve, Os.trap_of_exit h₀]
    rfl
  case neg =>
    have h : g.reg .a7 ∉ [0, 1, 2, 3, 4] := by
      simp only [List.mem_cons, List.not_mem_nil, or_false, not_or]
      exact ⟨h₀, h₁, h₂, h₃, h₄⟩
    rw [serve, Os.trap_of_unknown h]
    rfl

end Serve

theorem handled (g : Guest η σ) : g.Handled where
  refused h hl := by
    have hslot := Os.slot?_eq_none hl
    rcases h with h | h | h
    · simp only [serve_of_write h, Os.write, hslot]
      rfl
    · simp only [serve_of_read h, Os.read, hslot]
      rfl
    · simp only [serve_of_close h, Os.close, hslot]
  transferred h hl := by
    rcases h with h | h
    · rw [serve_of_write h, os_answer]
      exact Os.transfers_write hl ..
    · rw [serve_of_read h, os_answer]
      exact Os.transfers_read hl ..
  opened h := by
    have hserve := serve_of_open h
    obtain ⟨x, host, ho⟩ | ⟨r, host, ho, hr⟩ :=
      g.os.openFile_cases g.machine.space (g.reg .a0) (g.reg .a1)
    case inl =>
      rw [ho] at hserve
      rw [Opens, hserve]
      exact .inl ⟨⟨x, rfl⟩, rfl, RegFile.get_set_self (by decide) _⟩
    case inr =>
      rw [ho] at hserve
      rw [hserve]
      refine .inr ⟨by rw [os_answer], fun hok => ?_⟩
      obtain rfl | ⟨e, rfl⟩ := hr
      · exact RegFile.get_set_self (by decide) _
      · cases hok
  closed h hl := by
    obtain ⟨x, -, hslot⟩ := Os.exists_of_not_lacks hl
    simp only [serve_of_close h, Os.close, hslot]
    rfl
  other := os_serve_of_other

namespace Handled

variable {g g' : Guest η σ}

-- What a request can do to the table, whatever it asks for.
theorem cases (h : g.Handled) :
    g.serve.snd.os.handles = g.os.handles ∨
      (∃ slot, g.os.Transfers slot g.serve.snd.os) ∨
      (∃ slot, g.serve.snd.os = g.os.without slot) ∨ g.reg .a7 = 3 ∧ g.Opens := by
  by_cases h₃ : g.reg .a7 = 3
  case pos =>
    obtain ⟨ho, -⟩ | ⟨hsame, -⟩ := h.opened h₃
    · exact .inr (.inr (.inr ⟨h₃, ho⟩))
    · exact .inl hsame
  case neg =>
  by_cases hcall : g.reg .a7 = 1 ∨ g.reg .a7 = 2 ∨ g.reg .a7 = 4
  case neg =>
    push Not at hcall
    exact .inl (congrArg Os.handles (h.other hcall.1 hcall.2.1 h₃ hcall.2.2))
  case pos =>
  by_cases hl : g.os.Lacks (g.reg .a0)
  case pos =>
    rw [h.refused hcall hl]
    exact .inl rfl
  case neg =>
    rcases hcall with h₁ | h₂ | h₄
    · exact .inr (.inl ⟨_, h.transferred (.inl h₁) hl⟩)
    · exact .inr (.inl ⟨_, h.transferred (.inr h₂) hl⟩)
    · rw [h.closed h₄ hl]
      exact .inr (.inr (.inl ⟨_, rfl⟩))

theorem later (h : g.Handled) : g.os.Later g.serve.snd.os := by
  obtain hsame | ⟨slot, ht⟩ | ⟨slot, hw⟩ | ⟨-, x, hx⟩ := h.cases
  · exact Os.later_of_handles_eq hsame
  · exact ht.later
  · exact hw ▸ g.os.later_without slot
  · exact Os.later_of_push hx

-- Only a request to open a file adds a slot.
theorem call_of_opens (h : g.Handled) (ho : g.Opens) : g.reg .a7 = 3 := by
  obtain ⟨x, hx⟩ := ho
  have hsize := congrArg Array.size hx
  rw [Array.size_push] at hsize
  obtain hsame | ⟨slot, ht⟩ | ⟨slot, hw⟩ | ⟨h₃, -⟩ := h.cases
  · rw [hsame] at hsize
    omega
  · rw [ht.size] at hsize
    omega
  · simp [hw, Os.without] at hsize
  · exact h₃

theorem reg_of_opens (h : g.Handled) (ho : g.Opens) :
    g.serve.snd.reg .a0 = .ofNat 32 g.os.handles.size := by
  obtain ⟨-, -, hreg⟩ | ⟨hsame, -⟩ := h.opened (h.call_of_opens ho)
  · exact hreg
  · obtain ⟨x, hx⟩ := ho
    have hsize := congrArg Array.size (hsame.symm.trans hx)
    rw [Array.size_push] at hsize
    omega

end Handled

-- What happens to a guest. Whoever holds it makes moves, and may change its machine in between.
inductive Event
  | move (mv : Move)
  | alter (m : Machine)

-- The guest whose request the next step serves, if it is an `ecall`.
def requestOf (g : Guest η σ) : List (Guest η σ) :=
  match g.machine.step.fst with
  | .ok .ecall => [g.advance]
  | _ => []

def undergo (g : Guest η σ) : Event → Guest η σ
  | .move mv => (g.act mv).snd
  | .alter m => { g with machine := m }

def requestsOf (g : Guest η σ) : Event → List (Guest η σ)
  | .move .step => []
  | .move .serve => [g]
  | .move .run => (stepsFor g.machine.hart.watchdog g.resume).flatMap requestOf
  | .alter _ => []

def after (es : List Event) (g : Guest η σ) : Guest η σ :=
  es.foldl undergo g

-- The guests whose requests are served while events happen.
def requests : List Event → Guest η σ → List (Guest η σ)
  | [], _ => []
  | e :: es, g => g.requestsOf e ++ requests es (g.undergo e)

-- Requests that are served one after the other, each with what the one before it has left.
inductive Served : List (Guest η σ) → Os η σ → Os η σ → Prop
  | nil (os : Os η σ) : Served [] os os
  | cons (g : Guest η σ) {gs : List (Guest η σ)} {os : Os η σ} (h : Served gs g.serve.snd.os os) :
    Served (g :: gs) g.os os

namespace Served

variable {gs gs' : List (Guest η σ)} {os os' os'' : Os η σ}

theorem append (h : Served gs os os') (h' : Served gs' os' os'') : Served (gs ++ gs') os os'' := by
  induction h
  case nil => exact h'
  case cons g _ _ _ ih => exact .cons g (ih h')

theorem later (h : Served gs os os') : os.Later os' := by
  induction h
  case nil os => exact .refl os
  case cons g _ _ _ ih => exact g.handled.later.trans ih

theorem later_of_mem (h : Served gs os os') {g : Guest η σ} (hg : g ∈ gs) :
    os.Later g.os ∧ g.serve.snd.os.Later os' := by
  induction h
  case nil => cases hg
  case cons g' _ _ h ih =>
    cases hg
    case head => exact ⟨.refl _, h.later⟩
    case tail hg => exact ⟨g'.handled.later.trans (ih hg).1, (ih hg).2⟩

theorem pairwise (h : Served gs os os') :
    gs.Pairwise fun g g' => g.serve.snd.os.Later g'.os := by
  induction h
  case nil => exact .nil
  case cons h ih => exact .cons (fun _ hg => (h.later_of_mem hg).1) ih

end Served

theorem served_step (g : Guest η σ) : Served g.requestOf g.os g.step.snd.os := by
  obtain ⟨m, os⟩ := g
  unfold requestOf step advance
  dsimp only
  rcases m.step with ⟨_ | s, m'⟩
  case error => exact .nil os
  case ok =>
  cases s
  case halted => exact .nil os
  case retired => exact .nil os
  case ecall =>
    have h := Served.cons ⟨m', os⟩ (.nil _)
    dsimp only
    split
    all_goals
      rename_i hserve
      rwa [hserve] at h

theorem served_of_step {g g' : Guest η σ} {r : Except Trap (Option Outcome)}
    (h : g.step = (r, g')) : Served g.requestOf g.os g'.os := by
  have hstep := g.served_step
  rwa [h] at hstep

theorem served_runFor (executed budget : Nat) (g : Guest η σ) :
    Served ((stepsFor budget g).flatMap requestOf) g.os (runFor executed budget g).snd.os := by
  fun_induction runFor executed budget g
  case case1 g => exact .nil g.os
  case case2 h => simpa [stepsFor, h] using served_of_step h
  case case3 h => simpa [stepsFor, h] using served_of_step h
  case case4 h ih => simpa only [stepsFor, h, List.flatMap_cons] using (served_of_step h).append ih

theorem served_undergo (g : Guest η σ) : (e : Event) → Served (g.requestsOf e) g.os (g.undergo e).os
  | .move .step  => .nil g.os
  | .move .serve => .cons g (.nil _)
  | .move .run   => served_runFor 0 g.machine.hart.watchdog g.resume
  | .alter _     => .nil g.os

theorem served_requests (es : List Event) (g : Guest η σ) :
    Served (requests es g) g.os (after es g).os := by
  induction es generalizing g
  case nil => exact .nil g.os
  case cons e es ih => exact (g.served_undergo e).append (ih _)

-- Whether what a request opens is new to one that was served before. No slot is handed out twice,
-- and no number until there are no more numbers.
def Fresh (g g' : Guest η σ) : Prop :=
  g.Opens → g'.Opens →
    g.os.handles.size < g'.os.handles.size ∧
      (g.serve.snd.reg .a0 = g'.serve.snd.reg .a0 →
        g.os.handles.size + 2 ^ 32 ≤ g'.os.handles.size)

theorem fresh_of_later {g g' : Guest η σ} (h : g.serve.snd.os.Later g'.os) : Fresh g g' := by
  intro ho ho'
  rw [g.handled.reg_of_opens ho, g'.handled.reg_of_opens ho']
  obtain ⟨x, hx⟩ := ho
  have hsize := h.size
  rw [hx, Array.size_push] at hsize
  refine ⟨hsize, fun heq => ?_⟩
  have hmod := congrArg BitVec.toNat heq
  simp only [BitVec.toNat_ofNat] at hmod
  omega

-- What holds of a table of handles while requests are served.
structure Safe (os : Os η σ) (gs : List (Guest η σ)) (os' : Os η σ) : Prop where
  -- Nothing but these requests changes the table.
  served  : Served gs os os'
  later   : os.Later os'
  handled : ∀ g ∈ gs, g.Handled ∧ os.Later g.os ∧ g.serve.snd.os.Later os'
  order   : gs.Pairwise fun g g' => g.serve.snd.os.Later g'.os
  -- What was closed is closed for every request that comes after.
  closed  : gs.Pairwise fun g g' => ∀ slot : Nat,
    g.serve.snd.os.handles[slot]? = some none → g'.os.handles[slot]? = some none
  fresh   : gs.Pairwise Fresh

-- Handles are safe whatever happens to a guest.
theorem safe_requests (es : List Event) (g : Guest η σ) :
    Safe g.os (requests es g) (after es g).os where
  served := served_requests es g
  later := (served_requests es g).later
  handled r hr := ⟨r.handled, (served_requests es g).later_of_mem hr⟩
  order := (served_requests es g).pairwise
  closed := (served_requests es g).pairwise.imp fun h _ => h.closed
  fresh := (served_requests es g).pairwise.imp fresh_of_later

-- The standard streams keep their numbers.
theorem handles_after_start (es : List Event) (m : Machine) (host : Host) {i : Nat}
    {o : Option Handle} (hi : (Os.start host).handles[i]? = some o) :
    let os := (after es ⟨m, .start host⟩).os
    os.handles[i]? = some none ∨ os.handles[i]? = some o :=
  (served_requests es ⟨m, .start host⟩).later.of_start hi

-- A stream is closed once. Then it is no handle, like a number that is negative or past the table.
example :
    let calls : List (Word × Word) := [(4, 1), (4, 1), (1, 1), (1, -1), (2, 7)]
    let m : Machine := ⟨⟨0, .empty, 0, none, 0⟩, .empty⟩
    let call : Word × Word → List Event := fun (number, handle) =>
      [.alter ⟨(m.hart.setReg .a7 number).setReg .a0 handle, m.space⟩, .move .serve]
    (requests (calls.flatMap call) ⟨m, .start ⟨[], {}, {}, .empty⟩⟩).map (·.serve.snd.reg .a0) =
      [0, -1, -1, -1, -1] := by
  decide +kernel

end RV32IM.Guest
