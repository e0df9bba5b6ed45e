import RV32IM.Proofs.Machine.Far

-- Loading a constant. The one or two instructions that a session emits for it retire one after the
-- other, and leave the constant in its register and everything else as it was.

namespace RV32IM

namespace Instr

variable (rd : Reg) (v : Word)

-- The instructions that load a constant. The upper part is rounded, so that adding the lower part,
-- which is signed, gives the constant.
def constant : List Instr :=
  if fitsSigned v.toInt 12 then [.immediate .addi rd .zero v]
  else
    .upper .lui rd (splitDisplacement v).1 ::
      if (splitDisplacement v).2 = 0 then []
      else [.immediate .addi rd rd (splitDisplacement v).2]

-- What instructions are in memory.
def encodeAll (is : List Instr) : List Byte :=
  is.flatMap fun i => i.encode.toBytes

theorem lowerPart_eq_zero_iff : (splitDisplacement v).2 = 0 ↔ v.toNat % 4096 = 0 := by
  have hzero : (0 : Word).toInt = 0 := rfl
  rw [← BitVec.toInt_inj, toInt_lowerPart, hzero]
  split <;> omega

theorem length_constant :
    (constant rd v).length =
      if -2048 ≤ v.toInt ∧ v.toInt ≤ 2047 ∨ v.toNat % 4096 = 0 then 1 else 2 := by
  have hfits : fitsSigned v.toInt 12 ↔ -2048 ≤ v.toInt ∧ v.toInt ≤ 2047 := by
    rw [fitsSigned_iff]
    omega
  unfold constant
  simp only [hfits, lowerPart_eq_zero_iff]
  split_ifs <;> first | rfl | omega

end Instr

namespace Session

variable (s : Session) {rd rs : Reg} {v : Word}

theorem exec_addi (h : fitsSigned v.toInt 12) :
    s.exec (.immediate .addi rd rs (.value v)) = s.word (Instr.immediate .addi rd rs v).encode := by
  rw [exec_immediate]
  simp only [lowImm, if_pos h]

theorem exec_lui (h : v.toNat < 2 ^ 20) :
    s.exec (.upper .lui rd (.value v)) = s.word (Instr.upper .lui rd v).encode := by
  have hv : v.toInt = v.toNat := BitVec.toInt_eq_toNat_of_lt (by omega)
  refine (s.exec_upper (show Op.lui.format = .upper from rfl)).trans ?_
  rw [upperImm_value]
  dsimp only
  rw [expect, if_pos]
  omega

-- A constant is emitted as its instructions, and nothing is reported.
theorem run_li (rd : Reg) (v : Word) :
    s.run (Stmt.li rd v) = s.bytes (Instr.encodeAll (Instr.constant rd v)) := by
  unfold Stmt.li Instr.constant
  split
  case isTrue h => simp [run, exec_addi s h, Instr.encodeAll, word]
  case isFalse =>
    have hupper : s.exec (.upper .lui rd _) = _ := s.exec_lui (toNat_upperPart_lt v)
    dsimp only
    split
    case isTrue => simp [run, hupper, Instr.encodeAll, word]
    case isFalse =>
      simp only [run, List.foldl_cons, List.foldl_nil, hupper, exec_addi _ (fitsSigned_lowerPart v)]
      simp [word, bytes_bytes, Instr.encodeAll]

end Session

-- Whether instructions stand in a row from an address on, where they can be executed.
def AddressSpace.Holds (s : AddressSpace) : Word → List Instr → Prop
  | _, [] => True
  | addr, i :: is => s.fetch addr = .ok i.encode ∧ s.Holds (addr + 4) is

namespace Machine

-- Steps that all retire.
inductive Runs : Nat → Machine → Machine → Prop
  | done (m : Machine) : Runs 0 m m
  | step {n : Nat} {m m' m'' : Machine} (h : m.step = (.ok .retired, m')) (hs : Runs n m' m'') :
    Runs (n + 1) m m''

variable (m : Machine) (rd : Reg) (w : Word)

-- The machine past an instruction that sets a register.
def set : Machine :=
  { m with hart := ((m.hart.jump (m.hart.pc + 4)).setReg rd w).retire }

-- What loading a word into a register has done, `len` instructions on.
structure Loads (len : Nat) (m' : Machine) : Prop where
  get   : m'.hart.regs.get rd = w
  pc    : m'.hart.pc = m.hart.pc + BitVec.ofNat 32 (4 * len)
  other : ∀ r, r ≠ rd → m'.hart.regs.get r = m.hart.regs.get r
  space : m'.space = m.space

variable {m rd w} {m' : Machine} {rs : Reg} {v : Word}

theorem loads_set (h : rd ≠ .zero) : m.Loads rd w 1 (m.set rd w) where
  get     := RegFile.get_set_self h w
  pc      := rfl
  other _ := fun hr => RegFile.get_set_of_ne hr w
  space   := rfl

theorem Loads.set {len : Nat} {w' : Word} (h : rd ≠ .zero) (hm : m.Loads rd w len m') :
    m.Loads rd w' (len + 1) (m'.set rd w') where
  get := RegFile.get_set_self h w'
  pc := by
    have hpc : (m'.set rd w').hart.pc = m'.hart.pc + 4 := rfl
    rw [hpc, hm.pc, Nat.mul_add, BitVec.ofNat_add, ← BitVec.add_assoc]
    rfl
  other r hr := (RegFile.get_set_of_ne hr w').trans (hm.other r hr)
  space := hm.space

theorem step_addi (hv : fitsSigned v.toInt 12) (hpc : m.hart.pc.toNat % 4 = 0)
    (hf : m.space.fetch m.hart.pc = .ok (Instr.immediate .addi rd rs v).encode) :
    m.step = (.ok .retired, m.set rd (m.hart.regs.get rs + v)) := by
  rw [step_encode (Instr.wellFormed_immediate rfl hv) hpc hf]
  rfl

theorem step_lui (hpc : m.hart.pc.toNat % 4 = 0)
    (hf : m.space.fetch m.hart.pc = .ok (Instr.upper .lui rd v).encode) :
    m.step = (.ok .retired, m.set rd (v <<< 12)) := by
  rw [step_encode (Instr.wellFormed_upper rfl) hpc hf]
  rfl

-- The instructions of a constant load it.
theorem runs_constant (h : rd ≠ .zero) (v : Word) (hpc : m.hart.pc.toNat % 4 = 0)
    (hm : m.space.Holds m.hart.pc (Instr.constant rd v)) :
    ∃ m', m.Runs (Instr.constant rd v).length m' ∧
      m.Loads rd v (Instr.constant rd v).length m' := by
  unfold Instr.constant at hm ⊢
  split at hm
  case isTrue hv =>
    rw [if_pos hv]
    have hstep := step_addi hv hpc hm.left
    rw [RegFile.get_zero, show 0 + v = v from BitVec.zero_add v] at hstep
    exact ⟨_, .step hstep (.done _), loads_set h⟩
  case isFalse hv =>
    rw [if_neg hv]
    have hsum := splitDisplacement_add v
    have hupper := step_lui hpc hm.left
    split at hm
    case isTrue hlo =>
      rw [hlo, show (splitDisplacement v).1 <<< 12 + 0 = _ from BitVec.add_zero _] at hsum
      rw [hsum] at hupper
      rw [if_pos hlo]
      exact ⟨_, .step hupper (.done _), loads_set h⟩
    case isFalse hlo =>
      rw [if_neg hlo]
      have hl := loads_set (m := m) (w := (splitDisplacement v).1 <<< 12) h
      have hlower := step_addi (m := m.set rd ((splitDisplacement v).1 <<< 12))
        (fitsSigned_lowerPart v) (Far.aligned_add_four hpc) hm.right.left
      rw [hl.get, hsum] at hlower
      exact ⟨_, .step hupper (.step hlower (.done _)), hl.set h⟩

end Machine

open Machine in
-- A session emits instructions for a constant that load it wherever they stand.
theorem Session.run_li_loads (s : Session) {rd : Reg} (h : rd ≠ .zero) (v : Word) :
    s.run (Stmt.li rd v) = s.bytes (Instr.encodeAll (Instr.constant rd v)) ∧
      (s.run (Stmt.li rd v)).image.toList =
        s.image.toList ++ Instr.encodeAll (Instr.constant rd v) ∧
      (Instr.constant rd v).length =
        (if -2048 ≤ v.toInt ∧ v.toInt ≤ 2047 ∨ v.toNat % 4096 = 0 then 1 else 2) ∧
      ∀ m : Machine, m.hart.pc.toNat % 4 = 0 →
        m.space.Holds m.hart.pc (Instr.constant rd v) →
        ∃ m', Runs (Instr.constant rd v).length m m' ∧
          m.Loads rd v (Instr.constant rd v).length m' :=
  ⟨s.run_li rd v, s.run_li rd v ▸ Array.toList_appendList, Instr.length_constant rd v,
    fun _ hpc hm => runs_constant h v hpc hm⟩

-- A machine with instructions in memory that it may execute, and that is at the first of them.
def Machine.sample (is : List Instr) : Machine where
  hart  := ⟨0x1000, .empty, 0, none, 0⟩
  space := ⟨[(0x1000, ⟨0x1000, .readExecute, (Instr.encodeAll is).toArray⟩)]⟩

open Machine in
-- The lower part of the constant is negative.
theorem Session.run_li_sample :
    let is : List Instr := [.upper .lui .a0 0x12346, .immediate .addi .a0 .a0 (-1)]
    (start 0).run (Stmt.li .a0 0x12345fff) = (start 0).bytes (Instr.encodeAll is) ∧
      ∃ m', Runs 2 (.sample is) m' ∧ (Machine.sample is).Loads .a0 0x12345fff 2 m' := by
  have ha : Reg.a0 ≠ .zero := by decide
  have ⟨hrun, _, _, hloads⟩ := (start 0).run_li_loads ha 0x12345fff
  exact ⟨hrun, hloads (.sample _) (by decide) ⟨by rfl, by rfl, trivial⟩⟩

end RV32IM
