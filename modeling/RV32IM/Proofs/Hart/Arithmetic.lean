import Mathlib
import RV32IM.Machine

-- Arithmetic over numbers. What an operation computes is said of the numbers that its operands
-- denote, signed or unsigned, and a register receives the result modulo 2 ^ 32. Nothing on the way
-- there overflows: products have 64 bits, and shifts are by less than 32.

namespace RV32IM

namespace Op

-- Whether an operation computes a result from two operands and does nothing else.
def Arithmetic (op : Op) : Prop :=
  op.format = .reg ∨ op.format = .shift ∨ op.format = .imm ∧ op ≠ .jalr

instance (op : Op) : Decidable op.Arithmetic :=
  inferInstanceAs (Decidable (_ ∨ _ ∨ _ ∧ _))

-- The result over the numbers. Division by a power of two rounds down, `tdiv` rounds toward zero,
-- and `tmod` leaves a remainder with the sign of the dividend.
def exact (op : Op) (a b : Word) : Int :=
  match op with
  | add | addi => a.toInt + b.toInt
  | sub => a.toInt - b.toInt
  | sll | slli => a.toNat * 2 ^ (b.toNat % 32)
  | slt | slti => if a.toInt < b.toInt then 1 else 0
  | sltu | sltiu => if a.toNat < b.toNat then 1 else 0
  | xor | xori => (a.toNat ^^^ b.toNat : Nat)
  | srl | srli => a.toNat / 2 ^ (b.toNat % 32)
  | sra | srai => a.toInt / 2 ^ (b.toNat % 32)
  | or | ori => (a.toNat ||| b.toNat : Nat)
  | and | andi => (a.toNat &&& b.toNat : Nat)
  | mul => a.toInt * b.toInt
  | mulh => a.toInt * b.toInt / 2 ^ 32
  | mulhsu => a.toInt * b.toNat / 2 ^ 32
  | mulhu => a.toNat * b.toNat / 2 ^ 32
  | div => if b = 0 then -1 else a.toInt.tdiv b.toInt
  | divu => if b = 0 then 2 ^ 32 - 1 else a.toNat / b.toNat
  | rem => if b = 0 then a.toInt else a.toInt.tmod b.toInt
  | remu => if b = 0 then a.toNat else a.toNat % b.toNat
  | _ => 0

-- The words that occur on the way to a result denote the numbers that they stand for.
structure Fits (a b : Word) : Prop where
  signed   : (a.signExtend 64 * b.signExtend 64).toInt = a.toInt * b.toInt
  mixed    : (a.signExtend 64 * b.setWidth 64).toInt = a.toInt * b.toNat
  unsigned : (a.setWidth 64 * b.setWidth 64).toNat = a.toNat * b.toNat
  amount   : (b &&& 31).toNat = b.toNat % 32

-- The two halves of a product make up the product.
structure Halves (a b : Word) : Prop where
  signed   : (mulh.alu a b).toInt * 2 ^ 32 + (mul.alu a b).toNat = a.toInt * b.toInt
  mixed    : (mulhsu.alu a b).toInt * 2 ^ 32 + (mul.alu a b).toNat = a.toInt * b.toNat
  unsigned : (mulhu.alu a b).toNat * 2 ^ 32 + (mul.alu a b).toNat = a.toNat * b.toNat

-- Quotient and remainder go together. The least number divided by -1 is the one quotient that is
-- no signed number, and zero divides everything with a result of its own.
structure Divides (a b : Word) : Prop where
  signed : b ≠ 0 → ¬(a = .intMin 32 ∧ b = -1) →
    a.toInt = (div.alu a b).toInt * b.toInt + (rem.alu a b).toInt
  remainder : b ≠ 0 → |(rem.alu a b).toInt| < |b.toInt| ∧
    ((rem.alu a b).toInt = 0 ∨ (rem.alu a b).toInt.sign = a.toInt.sign)
  least : div.alu (.intMin 32) (-1) = .intMin 32 ∧ rem.alu (.intMin 32) (-1) = 0
  zero : (div.alu a 0).toInt = -1 ∧ rem.alu a 0 = a
  unsigned : b ≠ 0 → a.toNat = (divu.alu a b).toNat * b.toNat + (remu.alu a b).toNat ∧
    (remu.alu a b).toNat < b.toNat
  unsignedZero : (divu.alu a 0).toNat = 2 ^ 32 - 1 ∧ remu.alu a 0 = a

section Products

variable {p q : BitVec 64} {x y : Int}

-- There is room in 64 bits for a signed word times an unsigned one.
theorem abs_mul_lt (hx : |x| ≤ 2 ^ 31) (hy : |y| < 2 ^ 32) : |x * y| < 2 ^ 63 :=
  calc
    |x * y| = |x| * |y| := abs_mul x y
    _ ≤ 2 ^ 31 * |y| := by gcongr
    _ < 2 ^ 31 * 2 ^ 32 := by gcongr

theorem toInt_mul_of_lt (h : |p.toInt * q.toInt| < 2 ^ 63) :
    (p * q).toInt = p.toInt * q.toInt := by
  rw [abs_lt] at h
  rw [BitVec.toInt_mul]
  exact Int.bmod_eq_of_le h.left.le h.right

theorem upperHalf_eq_ofNat (p : BitVec 64) : upperHalf p = .ofNat 32 (p.toNat / 2 ^ 32) := by
  apply BitVec.eq_of_toNat_eq
  rw [upperHalf, BitVec.extractLsb'_toNat, Nat.shiftRight_eq_div_pow, BitVec.toNat_ofNat]

theorem upperHalf_eq_ofInt (p : BitVec 64) : upperHalf p = .ofInt 32 (p.toInt / 2 ^ 32) := by
  have h := BitVec.toInt_eq_toNat_cond p
  rw [upperHalf_eq_ofNat]
  apply BitVec.eq_of_toNat_eq
  rw [BitVec.toNat_ofNat, BitVec.toNat_ofInt]
  split at h <;> omega

theorem halves_ofInt (h : |x| < 2 ^ 63) :
    (BitVec.ofInt 32 (x / 2 ^ 32)).toInt * 2 ^ 32 + (BitVec.ofInt 32 x).toNat = x := by
  rw [abs_lt] at h
  have hupper : (BitVec.ofInt 32 (x / 2 ^ 32)).toInt = x / 2 ^ 32 := by
    rw [BitVec.toInt_ofInt]
    exact Int.bmod_eq_of_le (by omega) (by omega)
  rw [hupper, BitVec.toNat_ofInt]
  omega

theorem halves_ofNat {n : Nat} (h : n < 2 ^ 64) :
    (BitVec.ofNat 32 (n / 2 ^ 32)).toNat * 2 ^ 32 + (BitVec.ofNat 32 n).toNat = n := by
  rw [BitVec.toNat_ofNat, BitVec.toNat_ofNat]
  omega

end Products

variable {a b : Word}

theorem abs_toInt_le (a : Word) : |a.toInt| ≤ 2 ^ 31 :=
  abs_le.mpr ⟨a.le_toInt, a.toInt_lt.le⟩

theorem abs_mul_toInt_lt (a b : Word) : |a.toInt * b.toInt| < 2 ^ 63 :=
  abs_mul_lt (abs_toInt_le a) (by have := abs_toInt_le b; omega)

theorem abs_mul_toNat_lt (a b : Word) : |a.toInt * b.toNat| < 2 ^ 63 :=
  abs_mul_lt (abs_toInt_le a) (by rw [Nat.abs_cast]; exact_mod_cast b.isLt)

theorem mul_toNat_lt (a b : Word) : a.toNat * b.toNat < 2 ^ 64 :=
  have h : a.toNat * b.toNat < 2 ^ 32 * 2 ^ 32 := Nat.mul_lt_mul'' a.isLt b.isLt
  h

theorem toInt_signExtend (a : Word) : (a.signExtend 64).toInt = a.toInt :=
  BitVec.toInt_signExtend_of_le (by decide)

theorem toInt_setWidth (b : Word) : (b.setWidth 64).toInt = b.toNat := by
  have h : (b.setWidth 64).toNat = b.toNat := BitVec.toNat_setWidth_of_le (by decide)
  rw [BitVec.toInt_eq_toNat_of_lt (by omega), h]

theorem fits (a b : Word) : Fits a b where
  signed := by
    have h := abs_mul_toInt_lt a b
    rw [← toInt_signExtend a, ← toInt_signExtend b] at h ⊢
    exact toInt_mul_of_lt h
  mixed := by
    have h := abs_mul_toNat_lt a b
    rw [← toInt_signExtend a, ← toInt_setWidth b] at h ⊢
    exact toInt_mul_of_lt h
  unsigned := by
    have h := mul_toNat_lt a b
    rw [BitVec.toNat_mul, BitVec.toNat_setWidth_of_le (by decide),
      BitVec.toNat_setWidth_of_le (by decide), Nat.mod_eq_of_lt h]
  amount := by
    rw [BitVec.toNat_and]
    exact Nat.and_two_pow_sub_one_eq_mod _ 5

section Words

theorem ofInt_toNat (a : Word) : BitVec.ofInt 32 a.toNat = a := by
  rw [BitVec.ofInt_natCast, BitVec.ofNat_toNat, BitVec.setWidth_eq]

theorem ofInt_sub_toInt (a b : Word) : BitVec.ofInt 32 (a.toInt - b.toInt) = a - b := by
  rw [Int.sub_eq_add_neg, BitVec.ofInt_add, BitVec.ofInt_neg, BitVec.ofInt_toInt,
    BitVec.ofInt_toInt, BitVec.sub_eq_add_neg]

theorem ofBool_eq_ofInt {p : Bool} {q : Prop} [Decidable q] (h : p = true ↔ q) :
    ofBool p = .ofInt 32 (if q then 1 else 0) := by
  simp only [ofBool, h]
  split <;> rfl

theorem shiftLeft_eq_ofInt (a : Word) (n : Nat) : a <<< n = .ofInt 32 (a.toNat * 2 ^ n) := by
  have h : (a.toNat * 2 ^ n : Int) = (a.toNat <<< n : Nat) := by simp [Nat.shiftLeft_eq]
  rw [h, BitVec.ofInt_natCast]
  rfl

theorem ushiftRight_eq_ofInt (a : Word) (n : Nat) : a >>> n = .ofInt 32 (a.toNat / 2 ^ n) := by
  have h : (a.toNat / 2 ^ n : Int) = (a >>> n).toNat := by simp [Nat.shiftRight_eq_div_pow]
  rw [h, ofInt_toNat]

theorem sshiftRight_eq_ofInt (a : Word) (n : Nat) :
    a.sshiftRight n = .ofInt 32 (a.toInt / 2 ^ n) := by
  rw [BitVec.sshiftRight, Int.shiftRight_eq_div_pow, Nat.cast_pow, Nat.cast_ofNat]

theorem sdiv_eq_ofInt (a b : Word) : a.sdiv b = .ofInt 32 (a.toInt.tdiv b.toInt) := by
  apply BitVec.eq_of_toInt_eq
  rw [BitVec.toInt_sdiv, BitVec.toInt_ofInt]

theorem srem_eq_ofInt (a b : Word) : a.srem b = .ofInt 32 (a.toInt.tmod b.toInt) := by
  rw [← BitVec.toInt_srem, BitVec.ofInt_toInt]

end Words

theorem alu_eq_ofInt_exact {op : Op} (h : op.Arithmetic) :
    op.alu a b = .ofInt 32 (op.exact a b) := by
  have hf := fits a b
  cases op
  all_goals first | exact absurd h (by decide) | simp only [alu, exact]
  case add | addi => rw [BitVec.ofInt_add, BitVec.ofInt_toInt, BitVec.ofInt_toInt]
  case sub => exact (ofInt_sub_toInt a b).symm
  case sll | slli => rw [BitVec.shiftLeft_eq', hf.amount, shiftLeft_eq_ofInt]
  case slt | slti => exact ofBool_eq_ofInt BitVec.slt_iff_toInt_lt
  case sltu | sltiu => exact ofBool_eq_ofInt BitVec.ult_iff_toNat_lt
  case xor | xori => rw [← BitVec.toNat_xor, ofInt_toNat]
  case srl | srli => rw [BitVec.ushiftRight_eq', hf.amount, ushiftRight_eq_ofInt]
  case sra | srai => rw [BitVec.sshiftRight', hf.amount, sshiftRight_eq_ofInt]
  case or | ori => rw [← BitVec.toNat_or, ofInt_toNat]
  case and | andi => rw [← BitVec.toNat_and, ofInt_toNat]
  case mul => rw [BitVec.ofInt_mul, BitVec.ofInt_toInt, BitVec.ofInt_toInt]
  case mulh => rw [upperHalf_eq_ofInt, hf.signed]
  case mulhsu => rw [upperHalf_eq_ofInt, hf.mixed]
  case mulhu =>
    rw [upperHalf_eq_ofNat, hf.unsigned]
    rfl
  case div =>
    split
    · rfl
    · exact sdiv_eq_ofInt a b
  case rem =>
    split
    · exact BitVec.ofInt_toInt.symm
    · exact srem_eq_ofInt a b
  case divu =>
    split
    · rfl
    · exact BitVec.udiv_def
  case remu =>
    split
    · exact (ofInt_toNat a).symm
    · exact BitVec.umod_def

theorem halves (a b : Word) : Halves a b where
  signed := by
    have hlower : mul.alu a b = .ofInt 32 (a.toInt * b.toInt) :=
      alu_eq_ofInt_exact (by decide)
    have hupper : mulh.alu a b = .ofInt 32 (a.toInt * b.toInt / 2 ^ 32) :=
      alu_eq_ofInt_exact (by decide)
    rw [hlower, hupper]
    exact halves_ofInt (abs_mul_toInt_lt a b)
  mixed := by
    have hlower : mul.alu a b = .ofInt 32 (a.toInt * b.toNat) := by
      rw [BitVec.ofInt_mul, BitVec.ofInt_toInt, ofInt_toNat]
      rfl
    have hupper : mulhsu.alu a b = .ofInt 32 (a.toInt * b.toNat / 2 ^ 32) :=
      alu_eq_ofInt_exact (by decide)
    rw [hlower, hupper]
    exact halves_ofInt (abs_mul_toNat_lt a b)
  unsigned := by
    have hlower : mul.alu a b = .ofNat 32 (a.toNat * b.toNat) :=
      BitVec.mul_def
    have hupper : mulhu.alu a b = .ofNat 32 (a.toNat * b.toNat / 2 ^ 32) := by
      rw [← (fits a b).unsigned, ← upperHalf_eq_ofNat]
      rfl
    rw [hlower, hupper]
    exact halves_ofNat (mul_toNat_lt a b)

theorem divides (a b : Word) : Divides a b where
  signed hb h := by
    have hq : (a.sdiv b).toInt = a.toInt.tdiv b.toInt :=
      BitVec.toInt_sdiv_of_ne_or_ne a b (not_and_or.mp h)
    simp only [alu, if_neg hb, hq, BitVec.toInt_srem]
    exact (Int.tdiv_mul_add_tmod _ _).symm
  remainder hb := by
    have hpos : 0 < b.toInt.natAbs := Int.natAbs_pos.mpr fun h => hb (BitVec.eq_of_toInt_eq h)
    simp only [alu, if_neg hb, BitVec.toInt_srem]
    constructor
    case left =>
      rw [Int.abs_eq_natAbs, Int.abs_eq_natAbs, Int.natAbs_tmod]
      exact_mod_cast Nat.mod_lt _ hpos
    case right =>
      rw [Int.sign_tmod]
      split
      case isTrue h => exact .inl (Int.tmod_eq_zero_of_dvd h)
      case isFalse => exact .inr rfl
  least := ⟨by decide, by decide⟩
  zero := ⟨rfl, rfl⟩
  unsigned hb := by
    have hpos : 0 < b.toNat := Nat.pos_of_ne_zero fun h => hb (BitVec.eq_of_toNat_eq h)
    simp only [alu, if_neg hb, BitVec.udiv_eq, BitVec.umod_eq, BitVec.toNat_udiv,
      BitVec.toNat_umod]
    exact ⟨(Nat.div_add_mod' _ _).symm, Nat.mod_lt _ hpos⟩
  unsignedZero := ⟨rfl, rfl⟩

end Op

-- The second operand of arithmetic is a register or the immediate.
def Instr.second (i : Instr) (regs : RegFile) : Word :=
  if i.op.format = .reg then regs.get i.rs2 else i.imm

namespace Machine

variable {i : Instr}

theorem exec_eq_alu (m : Machine) (pc : Word) (h : i.op.Arithmetic) :
    m.exec pc i =
      m.retire (·.setReg i.rd (i.op.alu (m.hart.regs.get i.rs1) (i.second m.hart.regs))) := by
  obtain h | h | ⟨h, hop⟩ := h
  · simp only [exec, Instr.second, h, if_true]
  · simp only [exec, Instr.second, h, reduceCtorEq, if_false]
  · simp only [exec, Instr.second, h, hop, reduceCtorEq, if_false]

-- Executed arithmetic is exact. The destination receives the number that the operation stands for,
-- modulo 2 ^ 32, and nothing on the way to it overflows.
theorem exec_arithmetic (m : Machine) (pc : Word) (h : i.op.Arithmetic) :
    let a := m.hart.regs.get i.rs1
    let b := i.second m.hart.regs
    m.exec pc i = m.retire (·.setReg i.rd (i.op.alu a b)) ∧
      i.op.alu a b = .ofInt 32 (i.op.exact a b) ∧
      Op.Fits a b ∧ Op.Halves a b ∧ Op.Divides a b :=
  ⟨m.exec_eq_alu pc h, Op.alu_eq_ofInt_exact h, Op.fits _ _, Op.halves _ _, Op.divides _ _⟩

-- The least signed number times the greatest unsigned one just has room in 64 bits.
theorem exec_arithmetic_sample :
    let m : Machine :=
      ⟨⟨0, (RegFile.empty.set .a0 0x80000000).set .a1 0xffffffff, 0, none, 0⟩, .empty⟩
    Op.mulhsu.Arithmetic ∧
      m.exec 0 (.register .mulhsu .a2 .a0 .a1) = m.retire (·.setReg .a2 (.ofInt 32 (-2 ^ 31))) ∧
      Op.Halves 0x80000000 0xffffffff := by
  intro m
  have hop : Op.mulhsu.Arithmetic := by decide
  have ⟨hexec, halu, _, hhalves, _⟩ :=
    m.exec_arithmetic 0 (i := .register .mulhsu .a2 .a0 .a1) hop
  have hexact : Op.mulhsu.exact (m.hart.regs.get .a0) (m.hart.regs.get .a1) = -2 ^ 31 := by decide
  rw [halu] at hexec
  exact ⟨hop, hexact ▸ hexec, hhalves⟩

end Machine

end RV32IM
