import RV32IM.Proofs.Instr.Codec

-- Patching. Replacing the immediate of an instruction word whose immediate is zero gives the word
-- of the instruction with the new immediate, so a word that waited for its operand ends up as if
-- the operand had been known.

namespace RV32IM

theorem Layout.clear_fieldInsert_of_disjoint {l : Layout} {f : Field} (h : ∀ g ∈ l, f.Disjoint g)
    (w v : Word) : l.clear (f.insert w v) = f.insert (l.clear w) v := by
  unfold clear
  induction l generalizing w
  case nil => rfl
  case cons g l ih =>
    rw [List.foldl_cons, List.foldl_cons, Field.clear_insert_of_disjoint (h g List.mem_cons_self)]
    exact ih (fun g hg => h g (List.mem_cons_of_mem _ hg)) _

theorem Layout.insert_zero (l : Layout) (w : Word) : l.insert w 0 = w := by
  induction l generalizing w
  case nil => rfl
  case cons f l ih =>
    have hz : (0 : Word) >>> width l = 0 := BitVec.zero_ushiftRight
    rw [insert, hz, ih, Field.insert_zero]

-- An immediate is read back from where it was put.
theorem Format.immediate_replace {f : Format} {v : Word} (hv : f.Holds v) (w : Word) :
    f.immediate (f.layout.replace w (v >>> f.scale)) = v :=
  immediate_eq hv (by rw [Layout.extract_replace f.sound_layout, Field.setWidth_extract_low])

namespace Instr

variable {i : Instr}

theorem encode_of_imm_eq_zero (hi : i.RegsFit) (h : i.imm = 0) :
    i.encode = insertRegs i.op.fixedBits i.rd i.rs1 i.rs2 := by
  have hz : (0 : Word) >>> i.op.format.scale = 0 := BitVec.zero_ushiftRight
  rw [encode_eq hi, h, hz, Layout.insert_zero]

theorem clear_layout_encode (hi : i.RegsFit) (h : i.imm = 0) :
    i.op.format.layout.clear i.encode = i.encode := by
  rw [encode_of_imm_eq_zero hi h]
  refine insertRegs_induction (P := fun w => i.op.format.layout.clear w = w) hi
    i.op.clear_layout_fixedBits fun f hf w v hw => ?_
  rw [Layout.clear_fieldInsert_of_disjoint, hw]
  exact fun g hg => (Format.layout_disjoint_reg hf g hg).symm

theorem replace_encode (hi : i.RegsFit) (h : i.imm = 0) (v : Word) :
    i.op.format.layout.replace i.encode (v >>> i.op.format.scale) = { i with imm := v }.encode := by
  have hv : { i with imm := v }.RegsFit := ⟨hi.rd, hi.rs1, hi.rs2⟩
  rw [Layout.replace, clear_layout_encode hi h, encode_of_imm_eq_zero hi h, encode_eq hv]

end Instr

end RV32IM
