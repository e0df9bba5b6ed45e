import Mathlib
import RV32IM.Layout

-- Sign extension. The low bits of a word denote a value that fits them, they are the low bits of
-- that value, and no other value that fits has the same ones. The displacement of a branch is even
-- and is coded without its lowest bit, so the same is shown of twice such a value.

namespace RV32IM

theorem fitsSigned_iff {v : Int} {width : Nat} :
    fitsSigned v width = true ↔ -(2 ^ (width - 1) : Int) ≤ v ∧ v < 2 ^ (width - 1) := by
  simp [fitsSigned, valueCount, Nat.one_shiftLeft]

-- A value that fits `n` bits is what its low `n` bits denote.
theorem signExtend_eq_of_fitsSigned {v x : Word} {n : Nat} (hn : 0 < n) (hv : fitsSigned v.toInt n)
    (hx : x.setWidth n = v.setWidth n) : signExtend x n = v := by
  unfold signExtend
  split
  case isTrue h =>
    have ⟨hl, hu⟩ := fitsSigned_iff.mp hv
    have hpow : (2 ^ n : Int) = 2 * 2 ^ (n - 1) := by
      rw [← Int.pow_succ', Nat.sub_add_cancel hn]
    have hdvd : 2 ^ n ∣ 2 ^ 32 := Nat.pow_dvd_pow 2 (Nat.le_of_lt h)
    apply BitVec.eq_of_toInt_eq
    rw [BitVec.toInt_signExtend_of_le (Nat.le_of_lt h), hx, BitVec.toInt_setWidth,
      ← Int.bmod_bmod_of_dvd hdvd, ← BitVec.toInt_eq_toNat_bmod]
    apply Int.bmod_eq_of_le_mul_two <;> push_cast <;> omega
  case isFalse h =>
    have hx' := congrArg (BitVec.setWidth 32) hx
    simpa [BitVec.setWidth_setWidth_of_le _ (Nat.le_of_not_lt h)] using hx'

theorem and_one_eq_zero_iff {v : Word} : v &&& 1 = 0 ↔ v.toInt % 2 = 0 := by
  have h : (v &&& 1).toNat = v.toNat % 2 := by
    rw [BitVec.toNat_and]
    exact Nat.and_one_is_mod _
  rw [← BitVec.toNat_inj, h, BitVec.toInt_eq_toNat_cond]
  simp
  grind

theorem getLsbD_zero_of_and_one {v : Word} (h : v &&& 1 = 0) : v.getLsbD 0 = false := by
  have := congrArg (BitVec.getLsbD · 0) h
  simpa using this

-- An even value that fits one bit more is twice what its low bits, but for the lowest, denote.
theorem signExtend_shiftLeft_one {v x : Word} {n : Nat} (hn : 0 < n) (hn' : n < 32)
    (he : v &&& 1 = 0) (hv : fitsSigned v.toInt (n + 1))
    (hx : x.setWidth n = (v >>> 1).setWidth n) : signExtend x n <<< 1 = v := by
  have hfit : fitsSigned (v.sshiftRight 1).toInt n := by
    have ⟨hl, hu⟩ := fitsSigned_iff.mp hv
    have hpow : (2 ^ n : Int) = 2 * 2 ^ (n - 1) := by
      rw [← Int.pow_succ', Nat.sub_add_cancel hn]
    rw [Nat.add_sub_cancel] at hl hu
    rw [BitVec.toInt_sshiftRight, Int.shiftRight_eq_div_pow]
    exact fitsSigned_iff.mpr ⟨by omega, by omega⟩
  have hlow : x.setWidth n = (v.sshiftRight 1).setWidth n := by
    rw [hx]
    apply BitVec.eq_of_getLsbD_eq
    intro i hi
    simp only [BitVec.getLsbD_setWidth, BitVec.getLsbD_ushiftRight, BitVec.getLsbD_sshiftRight]
    simp [hi, show i < 32 by omega, show 1 + i < 32 by omega]
  rw [signExtend_eq_of_fitsSigned hn hfit hlow]
  apply BitVec.eq_of_getLsbD_eq
  intro i hi
  have h₀ := getLsbD_zero_of_and_one he
  simp only [BitVec.getLsbD_shiftLeft, BitVec.getLsbD_sshiftRight]
  cases i <;> grind

theorem setWidth_signExtend {n : Nat} (hn : n ≤ 32) (x : Word) :
    (signExtend x n).setWidth n = x.setWidth n := by
  apply BitVec.eq_of_getLsbD_eq
  intro i hi
  unfold signExtend
  split
  case isTrue =>
    rw [BitVec.getLsbD_setWidth, BitVec.getLsbD_signExtend, BitVec.getLsbD_setWidth]
    simp [hi, show i < 32 by omega]
  case isFalse => rfl

theorem fitsSigned_signExtend {n : Nat} (hn : 0 < n) (hn' : n ≤ 32) (x : Word) :
    fitsSigned (signExtend x n).toInt n := by
  rw [fitsSigned_iff]
  have hx : (signExtend x n).toInt = (x.setWidth n).toInt := by
    unfold signExtend
    split
    case isTrue h => rw [BitVec.toInt_signExtend_of_le (Nat.le_of_lt h)]
    case isFalse h =>
      obtain rfl : n = 32 := by omega
      simp
  rw [hx]
  have := BitVec.le_toInt (x.setWidth n)
  have := BitVec.toInt_lt (x := x.setWidth n)
  have h := Int.natCast_pow 2 (n - 1)
  constructor <;> omega

theorem setWidth_shiftLeft_one {n : Nat} (hn : n < 32) (v : Word) :
    ((v <<< 1) >>> 1).setWidth n = v.setWidth n := by
  apply BitVec.eq_of_getLsbD_eq
  intro i hi
  simp only [BitVec.getLsbD_setWidth, BitVec.getLsbD_ushiftRight, BitVec.getLsbD_shiftLeft]
  grind

theorem toInt_shiftLeft_one {n : Nat} (hn : n < 32) {v : Word} (hv : fitsSigned v.toInt n) :
    (v <<< 1).toInt = 2 * v.toInt := by
  have ⟨hl, hu⟩ := fitsSigned_iff.mp hv
  have hp : (2 ^ (n - 1) : Int) ≤ 2 ^ 30 := by
    exact_mod_cast Nat.pow_le_pow_right (n := 2) (by decide) (show n - 1 ≤ 30 by omega)
  have he := BitVec.toInt_eq_toNat_cond v
  rw [BitVec.toInt_eq_toNat_cond, BitVec.toNat_shiftLeft, Nat.shiftLeft_eq]
  split <;> omega

theorem fitsSigned_shiftLeft_one {n : Nat} (hn : 0 < n) (hn' : n < 32) {v : Word}
    (hv : fitsSigned v.toInt n) : fitsSigned (v <<< 1).toInt (n + 1) := by
  have ⟨hl, hu⟩ := fitsSigned_iff.mp hv
  have hp : (2 ^ n : Int) = 2 * 2 ^ (n - 1) := by
    rw [← Int.pow_succ', Nat.sub_add_cancel hn]
  rw [fitsSigned_iff, toInt_shiftLeft_one hn' hv, Nat.add_sub_cancel]
  omega

end RV32IM
