import RV32IM.Proofs.Layout.SignExtend

-- Displacements in two parts. The upper part is rounded, as the lower part is signed, and the two
-- add up to the displacement even where that wraps around.

namespace RV32IM

variable (d : Word)

theorem toNat_upperPart_lt : (splitDisplacement d).1.toNat < 2 ^ 20 :=
  BitVec.toNat_ushiftRight_lt (d + 0x800) 12 (by decide)

theorem toInt_lowerPart :
    (splitDisplacement d).2.toInt =
      if d.toNat % 4096 < 2048 then (d.toNat % 4096 : Int) else d.toNat % 4096 - 4096 := by
  simp only [splitDisplacement, signExtend, Nat.reduceLT, if_true]
  rw [BitVec.toInt_signExtend_of_le (by decide), BitVec.toInt_eq_toNat_cond, BitVec.toNat_setWidth]
  split <;> split <;> omega

theorem fitsSigned_lowerPart : fitsSigned (splitDisplacement d).2.toInt 12 := by
  rw [fitsSigned_iff, toInt_lowerPart]
  split <;> omega

theorem splitDisplacement_add :
    (splitDisplacement d).1 <<< 12 + (splitDisplacement d).2 = d := by
  have hlo := toInt_lowerPart d
  have hhi : (splitDisplacement d).1 = (d + 0x800) >>> 12 := rfl
  have hround : (0x800 : Word).toNat = 0x800 := rfl
  rw [BitVec.toInt_eq_toNat_cond] at hlo
  apply BitVec.eq_of_toNat_eq
  simp only [BitVec.toNat_add, BitVec.toNat_shiftLeft, hhi, BitVec.toNat_ushiftRight,
    Nat.shiftLeft_eq, Nat.shiftRight_eq_div_pow, hround]
  have := d.isLt
  have := (splitDisplacement d).2.isLt
  omega

end RV32IM
