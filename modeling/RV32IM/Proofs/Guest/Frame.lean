import RV32IM.Proofs.Guest.Handles
import RV32IM.Proofs.Host.Streams
import RV32IM.Proofs.Os.Path
import RV32IM.Proofs.Os.Read

-- What a system call leaves alone, on any bus. It gives its result in `a0` and changes nothing else
-- of the hart, and one that fails changes nothing that the program can see, if the bus stores bytes
-- in a row as a whole or not at all.

namespace RV32IM

-- What an `ecall` leaves of a hart, whatever it is fetched from.
def Hart.pastEcall (h : Hart) : Hart :=
  (h.jump (h.pc + 4)).retire

theorem Hart.pc_pastEcall (h : Hart) : h.pastEcall.pc - 4 = h.pc :=
  BitVec.add_sub_cancel ..

theorem Machine.snd_step_of_ecall {m : Machine} (h : m.step.fst = .ok .ecall) :
    m.step.snd = ⟨m.hart.pastEcall, m.space⟩ := by
  rw [step_eq] at h ⊢
  split at h
  case h_1 => cases h
  case h_2 => cases h
  case h_3 i hi =>
    unfold exec at h ⊢
    cases hf : i.op.format
    all_goals simp only [hf, retire] at h ⊢
    case system =>
      split at h
      case isTrue he => rw [if_pos he]; rfl
      case isFalse => cases h
    case load | store | imm => split at h <;> cases h
    all_goals cases h

namespace Os

variable {η σ : Type} [HostInterface η σ] {os os' : Os η σ} {slot : Nat}

-- Whether the same slots are open, each for what it stood for before.
structure Keeps (os os' : Os η σ) : Prop where
  size : os'.handles.size = os.handles.size
  slot (i : Nat) : os'.handles[i]? = os.handles[i]? ∨
    ∃ x x' : η, os.handles[i]? = some (some x) ∧ os'.handles[i]? = some (some x') ∧
      Relation.ReflTransGen (Uses σ) x x'

theorem keeps_of_handles_eq (h : os'.handles = os.handles) : os.Keeps os' where
  size := by rw [h]
  slot _ := .inl (by rw [h])

theorem Transfers.keeps (h : Transfers slot os os') : os.Keeps os' where
  size := h.size
  slot i := by
    by_cases hi : i = slot
    case pos => exact .inr (hi ▸ h.slot)
    case neg => exact .inl (h.other i hi)

-- Where requests leave handles alone, a table is kept as it is.
theorem Keeps.handles_eq (h : os.Keeps os') (hu : ∀ x x' : η, Uses σ x x' → x' = x) :
    os'.handles = os.handles := by
  refine Array.ext_getElem? fun i => ?_
  obtain hi | ⟨x, x', hx, hx', hxx'⟩ := h.slot i
  case inl => exact hi
  case inr =>
    have heq : x' = x := by
      clear hx'
      induction hxx'
      case refl => rfl
      case tail hu' ih => rw [hu _ _ hu', ih]
    rw [hx, hx', heq]

section Trap

variable {β : Type} {hart : Hart} {bus bus' : β}

-- What serving a request can be.
inductive Service (hart : Hart) (bus : β) (os : Os η σ) :
    Except Trap Unit × Hart × β × Os η σ → Prop
  | exit (h : hart.regs.get .a7 = 0) :
    Service hart bus os (.ok (), hart.stop (hart.regs.get .a0), bus, os)
  | result {w : Word} {bus' : β} {os' : Os η σ} (h : hart.regs.get .a7 ∈ [1, 2, 3, 4])
      (hb : bus' ≠ bus → hart.regs.get .a7 = 2 ∧ 0 < w.toInt) :
    Service hart bus os (.ok (), hart.setReg .a0 w, bus', os')
  | fault {os' : Os η σ} (e : MemoryError) (h : hart.regs.get .a7 ∈ [1, 2, 3])
      (hk : os.Keeps os') :
    Service hart bus os (.error (.memory (hart.pc - 4) e), hart, bus, os')
  | unknown (h : hart.regs.get .a7 ∉ [0, 1, 2, 3, 4]) :
    Service hart bus os
      (.error (.unknownSyscall (hart.pc - 4) (hart.regs.get .a7)), hart, bus, os)

theorem service_answer (h : hart.regs.get .a7 ∈ [1, 2, 3]) (r : Except MemoryError Word)
    (hb : bus' ≠ bus → ∃ w, r = .ok w ∧ hart.regs.get .a7 = 2 ∧ 0 < w.toInt)
    (hk : ∀ e, r = .error e → os.Keeps os') :
    Service hart bus os (answer (hart.pc - 4) hart bus' os' r) := by
  cases r
  case ok w =>
    refine .result (by grind) fun hne => ?_
    obtain ⟨_, hw, h⟩ := hb hne
    cases hw
    exact h
  case error e =>
    obtain rfl : bus' = bus := by
      by_contra hne
      obtain ⟨_, hw, _⟩ := hb hne
      cases hw
    exact .fault e h (hk e rfl)

-- What is left as it was when a request is served that an `ecall` at an address makes.
structure Framed (addr : Word) (hart : Hart) (bus : β) (os : Os η σ) (r : Except Trap Unit)
    (hart' : Hart) (bus' : β) (os' : Os η σ) : Prop where
  pc       : hart'.pc = hart.pc
  retired  : hart'.retired = hart.retired
  watchdog : hart'.watchdog = hart.watchdog
  -- Only the register for the result changes, and only if there is one.
  regs   : hart.regs.DiffersAt .a0 hart'.regs
  result : hart'.regs.get .a0 ≠ hart.regs.get .a0 → r = .ok () ∧ hart.regs.get .a7 ∈ [1, 2, 3, 4]
  exit   : hart'.exit ≠ hart.exit → hart.regs.get .a7 = 0
  -- Only a read changes memory, and only if it gives the program something.
  memory : bus' ≠ bus → hart.regs.get .a7 = 2 ∧ r = .ok () ∧ 0 < (hart'.regs.get .a0).toInt
  fault : ∀ t, r = .error t →
    t.pc = addr ∧ hart' = hart ∧ bus' = bus ∧ os.Keeps os' ∧
      ((∀ x x' : η, Uses σ x x' → x' = x) → os'.handles = os.handles)
  -- Memory is at fault, or there is no such call.
  cause : ∀ t, r = .error t →
    hart.regs.get .a7 ∈ [1, 2, 3] ∧ (∃ e, t = .memory addr e) ∨
      hart.regs.get .a7 ∉ [0, 1, 2, 3, 4] ∧ t = .unknownSyscall addr (hart.regs.get .a7)

theorem Service.framed {s : Except Trap Unit × Hart × β × Os η σ} (h : Service hart bus os s) :
    Framed (hart.pc - 4) hart bus os s.1 s.2.1 s.2.2.1 s.2.2.2 := by
  have hregs := hart.regs.differsAt_refl .a0
  cases h
  case exit h =>
    exact ⟨rfl, rfl, rfl, hregs, absurd rfl, fun _ => h, absurd rfl, nofun, nofun⟩
  case result w _ _ h hb =>
    have hset : (hart.regs.set .a0 w).get .a0 = w := RegFile.get_set_self (by decide) w
    refine ⟨rfl, rfl, rfl, hart.regs.differsAt_set .a0 w, fun _ => ⟨rfl, h⟩, absurd rfl,
      fun hne => ?_, nofun, nofun⟩
    have ⟨hread, hpos⟩ := hb hne
    exact ⟨hread, rfl, by rwa [← hset] at hpos⟩
  case fault e h hk =>
    refine ⟨rfl, rfl, rfl, hregs, absurd rfl, absurd rfl, absurd rfl, fun t ht => ?_,
      fun t ht => ?_⟩
    all_goals cases ht
    · exact ⟨rfl, rfl, rfl, hk, hk.handles_eq⟩
    · exact .inl ⟨h, e, rfl⟩
  case unknown h =>
    refine ⟨rfl, rfl, rfl, hregs, absurd rfl, absurd rfl, absurd rfl, fun t ht => ?_,
      fun t ht => ?_⟩
    all_goals cases ht
    · exact ⟨rfl, rfl, rfl, keeps_of_handles_eq rfl, fun _ => rfl⟩
    · exact .inr ⟨h, rfl⟩

variable [Bus β]

theorem service_write (h : hart.regs.get .a7 = 1) : Service hart bus os (os.trap hart bus) := by
  rw [trap_of_write h]
  refine service_answer (by simp [h]) _ (absurd rfl) fun e he => ?_
  by_cases hl : os.Lacks (hart.regs.get .a0)
  case pos =>
    simp only [write, slot?_eq_none hl]
    exact keeps_of_handles_eq rfl
  case neg => exact (transfers_write hl ..).keeps

theorem service_read [Bus.Atomic β] (hw : ReadsWithin η σ) (h : hart.regs.get .a7 = 2) :
    Service hart bus os (os.trap hart bus) := by
  rw [trap_of_read h]
  by_cases hl : os.Lacks (hart.regs.get .a0)
  case pos =>
    rw [read_eq_of_lacks hl]
    exact service_answer (by simp [h]) _ (absurd rfl) nofun
  case neg =>
    have hk := transfers_read hl bus (hart.regs.get .a1) (hart.regs.get .a2).toNat
    obtain ⟨x, -, hslot⟩ := exists_of_not_lacks hl
    have hread := reads_read hslot bus (hart.regs.get .a1) (hart.regs.get .a2).toNat
    refine service_answer (by simp [h]) _ ?_ fun _ _ => hk.keeps
    generalize os.read bus _ _ _ = r at hread
    cases hread
    case stored bs _ hne hr _ =>
      have hlen := hw _ _ _ _ hr
      have hpos := List.length_pos_iff.mpr hne
      refine fun _ => ⟨_, rfl, h, ?_⟩
      rw [Word.toInt_ofNat (by simp only [chunkSize] at hlen; omega)]
      exact_mod_cast hpos
    case fault hstore => exact absurd (Bus.eq_of_writeBytes_error hstore)
    all_goals exact absurd rfl

theorem service_open (h : hart.regs.get .a7 = 3) : Service hart bus os (os.trap hart bus) := by
  rw [trap_of_open h]
  obtain ⟨x, host, ho⟩ | ⟨r, host, ho, _⟩ :=
    os.openFile_cases bus (hart.regs.get .a0) (hart.regs.get .a1)
  all_goals rw [ho]
  case inl => exact service_answer (by simp [h]) _ (absurd rfl) nofun
  case inr => exact service_answer (by simp [h]) _ (absurd rfl) fun _ _ => keeps_of_handles_eq rfl

theorem service [Bus.Atomic β] (hw : ReadsWithin η σ) (hart : Hart) (bus : β) (os : Os η σ) :
    Service hart bus os (os.trap hart bus) := by
  by_cases h : hart.regs.get .a7 ∈ [0, 1, 2, 3, 4]
  case neg =>
    rw [trap_of_unknown h]
    exact .unknown h
  case pos =>
    simp only [List.mem_cons, List.not_mem_nil, or_false] at h
    rcases h with h | h | h | h | h
    · rw [trap_of_exit h]
      exact .exit h
    · exact service_write h
    · exact service_read hw h
    · exact service_open h
    · rw [trap_of_close h]
      exact .result (by simp [h]) (absurd rfl)

end Trap

-- A hart at an `ecall` that reads four bytes to an address.
def reader (addr : Word) : Hart where
  pc := 0x1000
  regs := ((RegFile.empty.set .a7 2).set .a1 addr).set .a2 4
  watchdog := 2000
  exit := none
  retired := 0

-- A program that has two bytes of input.
def typed : Os Handle Host :=
  .start ⟨[some [1, 2]], {}, {}, .empty⟩

-- Memory with an `ecall` at 0x1000 that may not be written.
def sealed : AddressSpace :=
  ⟨[(0x1000, ⟨0x1000, .readExecute, (Word.toBytes 0x00000073).toArray⟩)]⟩

-- A bus with one byte of memory, at address 0. It stores bytes one by one.
structure Cell where
  byte : Byte
  deriving DecidableEq

instance : Bus Cell where
  readByte c addr    := if addr = 0 then .ok c.byte else .error (.unmapped addr 1)
  writeByte c addr b := if addr = 0 then (.ok (), ⟨b⟩) else (.error (.unmapped addr 1), c)

end Os

end RV32IM
