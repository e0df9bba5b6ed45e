import RV32IM.Proofs.Instr.Decode
import RV32IM.Proofs.Session.Emission

-- The words that decode. They are the encodings of instructions whose operands are in range, and
-- the fences, which may have any operands.

namespace RV32IM.Instr

variable {i : Instr} {w : Word}

theorem encode_decode_of_not_fence (h : decode w = some i) (hf : ¬w.IsFence) : i.encode = w :=
  encode_decode h fun ho => absurd ((op_eq_fence_iff h).mp ho) hf

-- A word that does not decode is no fence, and no instruction is coded by it.
theorem decode_eq_none_iff :
    decode w = none ↔ ¬w.IsFence ∧ ∀ i : Instr, i.WellFormed → i.encode ≠ w := by
  constructor
  case mp =>
    intro h
    constructor
    case left  => exact fun hf => absurd (h.symm.trans (decode_fence hf)) (by simp)
    case right => exact fun i hi he => absurd (h.symm.trans (he ▸ decode_encode hi)) (by simp)
  case mpr =>
    intro ⟨hf, he⟩
    cases h : decode w
    case none => rfl
    case some i => exact absurd (encode_decode_of_not_fence h hf) (he i (wellFormed_of_decode h))

theorem forall_wellFormed_iff {P : Instr → Prop} :
    (∀ i : Instr, i.WellFormed → P i) ↔
      ∀ op rd rs1 rs2 v, op.format.Represents v → P (ofOperands op rd rs1 rs2 v) := by
  constructor
  case mp  => exact fun h op rd rs1 rs2 v hv => h _ (wellFormed_ofOperands hv)
  case mpr =>
    intro h i hi
    have := h i.op i.rd i.rs1 i.rs2 i.operand (represents_operand hi)
    rwa [ofOperands_operand hi] at this

-- Decoding loses nothing but the operands of a fence, and refuses nothing that can be encoded.
theorem decode_iff_encode (w : Word) :
    (∀ i, decode w = some i → if i.op = .fence then w.IsFence else i.encode = w) ∧
      (decode w = none ↔ ¬w.IsFence ∧ ∀ op rd rs1 rs2 v, op.format.Represents v →
        (ofOperands op rd rs1 rs2 v).encode ≠ w) := by
  constructor
  case left =>
    intro i h
    split
    case isTrue ho  => exact (op_eq_fence_iff h).mp ho
    case isFalse ho => exact encode_decode h fun hf => absurd hf ho
  case right => rw [decode_eq_none_iff, forall_wellFormed_iff]

theorem decode_iff_encode_sample :
    (sources .sw ⟨3⟩ ⟨2⟩ (-4)).encode = 0xFE21AE23 ∧ Word.IsFence 0x0FF0000F ∧
      decode 0x041101B3 = none ∧ (ofOperands .add ⟨3⟩ ⟨2⟩ ⟨1⟩ 0).encode ≠ 0x041101B3 := by
  have hstore := (decode_iff_encode 0xFE21AE23).left (sources .sw ⟨3⟩ ⟨2⟩ (-4)) (by decide)
  have hfence := (decode_iff_encode 0x0FF0000F).left (bare .fence) (by decide)
  have hnone : decode 0x041101B3 = none := by decide
  have ⟨_, hadd⟩ := (decode_iff_encode 0x041101B3).right.mp hnone
  exact ⟨hstore, hfence, hnone, hadd .add ⟨3⟩ ⟨2⟩ ⟨1⟩ 0 trivial⟩

end RV32IM.Instr
