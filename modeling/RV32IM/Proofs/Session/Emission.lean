import RV32IM.Proofs.Instr.Codec
import RV32IM.Session.Stmt

-- Emission of instructions whose operands are numbers. Whatever the operand is, one word is
-- emitted. A number that the format cannot represent is reported once, and every other one is what
-- decoding the word gives back.

namespace RV32IM

-- Whether a number is an operand of a format. The upper part of a word may be given as a signed or
-- as an unsigned number.
def Format.Represents (v : Word) : Format → Prop
  | .imm | .load | .store => -2048 ≤ v.toInt ∧ v.toInt ≤ 2047
  | .shift => v.toNat < 32
  | .branch => v.toInt % 2 = 0 ∧ -2 ^ 12 ≤ v.toInt ∧ v.toInt < 2 ^ 12
  | .upper => -2 ^ 19 ≤ v.toInt ∧ v.toInt < 2 ^ 20
  | .jump => v.toInt % 2 = 0 ∧ -2 ^ 20 ≤ v.toInt ∧ v.toInt < 2 ^ 20
  | .reg | .system | .fence => True

instance (v : Word) : (f : Format) → Decidable (f.Represents v)
  | .imm | .load | .store => inferInstanceAs (Decidable (_ ∧ _))
  | .shift => inferInstanceAs (Decidable (_ < _))
  | .branch | .jump => inferInstanceAs (Decidable (_ ∧ _ ∧ _))
  | .upper => inferInstanceAs (Decidable (_ ∧ _))
  | .reg | .system | .fence => .isTrue trivial

-- What is reported of a number that is no operand of a format.
def Format.complaint (site v : Word) : Format → Diagnostic
  | .branch => .outOfRange site .branch v.toInt
  | .jump => .outOfRange site .jump v.toInt
  | .shift => .immediateRange site v.toNat 5
  | .upper => .immediateRange site v.toInt 20
  | .imm | .load | .store | .reg | .system | .fence => .immediateRange site v.toInt 12

-- The statement that emits an operation with those of the operands that its format has.
def Stmt.ofOperands (op : Op) (rd rs1 rs2 : Reg) (v : Word) : Stmt :=
  match h : op.format with
  | .reg => .register op rd rs1 rs2 h
  | .imm => .immediate op rd rs1 (.value v) (.imm h)
  | .load => .immediate op rd rs1 (.value v) (.load h)
  | .shift => .shift op rd rs1 v h
  | .store => .store op rs2 rs1 (.value v) h
  | .branch => .branch op rs1 rs2 (.offset v) h
  | .upper => .upper op rd (.value v) h
  | .jump => .jump op rd (.offset v) h
  | .system | .fence => .bare op

namespace Stmt

variable {op : Op} (rd rs1 rs2 : Reg) (v : Word)

theorem ofOperands_reg (h : op.format = .reg) :
    ofOperands op rd rs1 rs2 v = .register op rd rs1 rs2 h := by
  grind [ofOperands]

theorem ofOperands_imm (h : op.format = .imm) :
    ofOperands op rd rs1 rs2 v = .immediate op rd rs1 (.value v) (.imm h) := by
  grind [ofOperands]

theorem ofOperands_load (h : op.format = .load) :
    ofOperands op rd rs1 rs2 v = .immediate op rd rs1 (.value v) (.load h) := by
  grind [ofOperands]

theorem ofOperands_shift (h : op.format = .shift) :
    ofOperands op rd rs1 rs2 v = .shift op rd rs1 v h := by
  grind [ofOperands]

theorem ofOperands_store (h : op.format = .store) :
    ofOperands op rd rs1 rs2 v = .store op rs2 rs1 (.value v) h := by
  grind [ofOperands]

theorem ofOperands_branch (h : op.format = .branch) :
    ofOperands op rd rs1 rs2 v = .branch op rs1 rs2 (.offset v) h := by
  grind [ofOperands]

theorem ofOperands_upper (h : op.format = .upper) :
    ofOperands op rd rs1 rs2 v = .upper op rd (.value v) h := by
  grind [ofOperands]

theorem ofOperands_jump (h : op.format = .jump) :
    ofOperands op rd rs1 rs2 v = .jump op rd (.offset v) h := by
  grind [ofOperands]

theorem ofOperands_bare (h : op.format = .system ∨ op.format = .fence) :
    ofOperands op rd rs1 rs2 v = .bare op := by
  grind [ofOperands]

end Stmt

namespace Instr

variable {op : Op} {rd rs1 rs2 : Reg} {v : Word}

theorem wellFormed_ofOperands (h : op.format.Represents v) :
    (ofOperands op rd rs1 rs2 v).WellFormed where
  toRegsFit := regsFit_ofOperands
  imm := by
    rw [op_ofOperands]
    cases hf : op.format
    all_goals
      simp only [hf, Format.Represents, Format.Holds, ofOperands, fitsSigned_iff] at h ⊢
    case reg | system | fence => rfl
    case imm | load | store => exact ⟨h.left, Int.lt_add_one_iff.mpr h.right⟩
    case shift => exact h
    case branch | jump => exact ⟨and_one_eq_zero_iff.mpr h.left, h.right⟩
    case upper => exact Field.shiftLeft_and_mask 12 v

-- The immediate as a statement gives it.
def operand (i : Instr) : Word :=
  match i.op.format with
  | .upper => i.imm >>> 12
  | _ => i.imm

section Operand

variable {i : Instr}

theorem represents_operand (hi : i.WellFormed) : i.op.format.Represents i.operand := by
  have h := hi.imm
  unfold operand
  cases hf : i.op.format
  all_goals simp only [hf, Format.Represents, Format.Holds, fitsSigned_iff] at h ⊢
  case imm | load | store => omega
  case shift => exact h
  case branch | jump => exact ⟨and_one_eq_zero_iff.mp h.left, h.right⟩
  case upper =>
    have hlt : (i.imm >>> 12).toNat < 2 ^ 20 := BitVec.toNat_ushiftRight_lt i.imm 12 (by decide)
    rw [BitVec.toInt_eq_toNat_of_lt (by omega)]
    omega

-- What a well-formed instruction is asked for with.
theorem ofOperands_operand (hi : i.WellFormed) :
    ofOperands i.op i.rd i.rs1 i.rs2 i.operand = i := by
  have ⟨⟨hrd, hrs1, hrs2⟩, himm⟩ := hi
  unfold operand ofOperands
  obtain ⟨op, rd, rs1, rs2, imm⟩ := i
  cases h : op.format
  all_goals
    simp [h, Format.regFields, Format.Holds, rdField, rs1Field, rs2Field] at hrd hrs1 hrs2 himm
    subst_vars
  case upper => simpa [upper] using Format.ushiftRight_shiftLeft_of_and_low himm
  all_goals rfl

end Operand

end Instr

namespace Session

variable (s : Session) (v : Word)

-- A session to which something is reported unless a condition holds.
def expect (p : Prop) [Decidable p] (d : Diagnostic) : Session :=
  if p then s else s.report d

theorem lowImm_value :
    s.lowImm (.value v) =
      (v, s.expect (-2048 ≤ v.toInt ∧ v.toInt ≤ 2047) (.immediateRange s.cursor v.toInt 12)) := by
  have h : fitsSigned v.toInt 12 ↔ -2048 ≤ v.toInt ∧ v.toInt ≤ 2047 := by
    rw [fitsSigned_iff]
    omega
  simp only [lowImm, expect, h]

theorem upperImm_value :
    s.upperImm (.value v) =
      (v, s.expect (-2 ^ 19 ≤ v.toInt ∧ v.toInt < 2 ^ 20)
        (.immediateRange s.cursor v.toInt 20)) := by
  have hl : (valueCount 19 : Int) = 2 ^ 19 := rfl
  have hu : (valueCount 20 : Int) = 2 ^ 20 := rfl
  simp only [upperImm, expect, Bool.and_eq_true, decide_eq_true_eq, hl, hu]

theorem reaches_iff {disp : Word} {kind : RelocKind} :
    reaches disp kind ↔ disp.toInt % 2 = 0 ∧ -2 ^ (kind.width - 1) ≤ disp.toInt ∧
      disp.toInt < 2 ^ (kind.width - 1) := by
  rw [reaches, Bool.and_eq_true, beq_iff_eq, and_one_eq_zero_iff, fitsSigned_iff]

theorem displacement_offset (kind : RelocKind) :
    s.displacement kind (.offset v) =
      (v, s.expect (v.toInt % 2 = 0 ∧ -2 ^ (kind.width - 1) ≤ v.toInt ∧
        v.toInt < 2 ^ (kind.width - 1)) (.outOfRange s.cursor kind v.toInt)) := by
  simp only [displacement, expect, reaches_iff]

theorem shiftAmount_eq :
    s.shiftAmount v = s.expect (v.toNat < 32) (.immediateRange s.cursor v.toNat 5) :=
  rfl

-- A statement of an operation emits an instruction of it.
section Typed

variable {op : Op} {rd rs1 rs2 : Reg} {imm : Imm} {target : Target}

theorem exec_register (h : op.format = .reg) :
    s.exec (.register op rd rs1 rs2 h) = s.word (Instr.register op rd rs1 rs2).encode := by
  rw [Instr.encode_register h]
  rfl

theorem exec_immediate (h : op.TakesImmediate) :
    s.exec (.immediate op rd rs1 imm h) =
      (s.lowImm imm).2.word (Instr.immediate op rd rs1 (s.lowImm imm).1).encode := by
  rw [Instr.encode_immediate h]
  rfl

theorem exec_shift (h : op.format = .shift) :
    s.exec (.shift op rd rs1 v h) =
      (s.shiftAmount v).word (Instr.immediate op rd rs1 v).encode := by
  rw [Instr.encode_shift h]
  rfl

theorem exec_store (h : op.format = .store) :
    s.exec (.store op rs2 rs1 imm h) =
      (s.lowImm imm).2.word (Instr.sources op rs1 rs2 (s.lowImm imm).1).encode := by
  rw [Instr.encode_store h]
  rfl

theorem exec_branch (h : op.format = .branch) :
    s.exec (.branch op rs1 rs2 target h) = (s.displacement .branch target).2.word
      (Instr.sources op rs1 rs2 (s.displacement .branch target).1).encode := by
  rw [Instr.encode_branch h]
  rfl

theorem exec_upper (h : op.format = .upper) :
    s.exec (.upper op rd imm h) =
      (s.upperImm imm).2.word (Instr.upper op rd (s.upperImm imm).1).encode := by
  rw [Instr.encode_upper h]
  rfl

theorem exec_jump (h : op.format = .jump) :
    s.exec (.jump op rd target h) = (s.displacement .jump target).2.word
      (Instr.jump op rd (s.displacement .jump target).1).encode := by
  rw [Instr.encode_jump h]
  rfl

theorem exec_bare (h : op.format = .system ∨ op.format = .fence) :
    s.exec (.bare op) = s.word (Instr.bare op).encode := by
  rcases h with h | h <;> simp [Stmt.bare, exec, Instr.encode, Instr.bare, h]

end Typed

variable (op : Op) (rd rs1 rs2 : Reg)

-- The word is that of the instruction even if the operand is no number of the format.
theorem exec_ofOperands_eq :
    s.exec (.ofOperands op rd rs1 rs2 v) =
      (s.expect (op.format.Represents v) (op.format.complaint s.cursor v)).word
        (Instr.ofOperands op rd rs1 rs2 v).encode := by
  have hr : s.expect True (op.format.complaint s.cursor v) = s := if_pos trivial
  cases hf : op.format
  all_goals simp only [Instr.ofOperands, hf] at hr ⊢
  case reg =>
    rw [Stmt.ofOperands_reg _ _ _ _ hf, exec_register]
    exact congrArg (word · _) hr.symm
  case imm =>
    rw [Stmt.ofOperands_imm _ _ _ _ hf, exec_immediate, lowImm_value]
    rfl
  case load =>
    rw [Stmt.ofOperands_load _ _ _ _ hf, exec_immediate, lowImm_value]
    rfl
  case store =>
    rw [Stmt.ofOperands_store _ _ _ _ hf, exec_store, lowImm_value]
    rfl
  case shift =>
    rw [Stmt.ofOperands_shift _ _ _ _ hf, exec_shift, shiftAmount_eq]
    rfl
  case branch =>
    rw [Stmt.ofOperands_branch _ _ _ _ hf, exec_branch, displacement_offset]
    rfl
  case upper =>
    rw [Stmt.ofOperands_upper _ _ _ _ hf, exec_upper, upperImm_value]
    rfl
  case jump =>
    rw [Stmt.ofOperands_jump _ _ _ _ hf, exec_jump, displacement_offset]
    rfl
  case system =>
    rw [Stmt.ofOperands_bare _ _ _ _ (.inl hf), s.exec_bare (.inl hf)]
    exact congrArg (word · _) hr.symm
  case fence =>
    rw [Stmt.ofOperands_bare _ _ _ _ (.inr hf), s.exec_bare (.inr hf)]
    exact congrArg (word · _) hr.symm

theorem toList_image_word (w : Word) :
    (s.word w).image.toList = s.image.toList ++ w.toBytes :=
  Array.toList_appendList

-- No operand is truncated in silence: exactly one word is emitted, it decodes to the instruction
-- that was asked for, and if that is impossible it is reported, once.
theorem exec_ofOperands :
    ∃ w, s.exec (.ofOperands op rd rs1 rs2 v) =
        (if op.format.Represents v then s
          else s.report (op.format.complaint s.cursor v)).word w ∧
      (s.exec (.ofOperands op rd rs1 rs2 v)).image.toList = s.image.toList ++ w.toBytes ∧
      (op.format.Represents v → Instr.decode w = some (.ofOperands op rd rs1 rs2 v)) := by
  have hexec := s.exec_ofOperands_eq v op rd rs1 rs2
  refine ⟨_, hexec, ?_, fun h => Instr.decode_encode (Instr.wellFormed_ofOperands h)⟩
  have himage : (s.expect (op.format.Represents v) (op.format.complaint s.cursor v)).image =
      s.image := by
    unfold expect
    split <;> rfl
  rw [hexec, toList_image_word, himage]

theorem exec_operand {i : Instr} (hi : i.WellFormed) :
    s.exec (.ofOperands i.op i.rd i.rs1 i.rs2 i.operand) = s.word i.encode := by
  rw [exec_ofOperands_eq, Instr.ofOperands_operand hi, expect, if_pos (Instr.represents_operand hi)]

end Session

end RV32IM
