import RV32IM.Proofs.Instr.Codec

-- What decoding says of a word. The operation comes from the fields of its key and every operand
-- from a field of its own, so a word that decodes is known from its instruction, and encoding the
-- instruction gives it back. Only a fence has bits that decoding ignores.

namespace RV32IM

namespace Format

variable {f : Format} {w w' : Word}

theorem width_layout_le (f : Format) : f.layout.width ≤ 32 :=
  f.sound_layout.width_le

-- The immediate that is read from a word has the bits of the word in its layout.
theorem setWidth_immediate (f : Format) (w : Word) :
    (f.immediate w >>> f.scale).setWidth f.layout.width =
      (f.layout.extract w).setWidth f.layout.width := by
  cases f
  case reg | system | fence => rfl
  case imm | load | store => exact setWidth_signExtend (by decide) _
  case branch | jump =>
    exact (setWidth_shiftLeft_one (by decide) _).trans (setWidth_signExtend (by decide) _)
  case shift =>
    rw [layout, Layout.extract_singleton]
    rfl
  case upper =>
    rw [layout, Layout.uImm, Layout.extract_singleton, immediate, and_high]
    apply BitVec.eq_of_getLsbD_eq
    intro i hi
    simp only [Layout.width] at hi
    simp only [scale, BitVec.getLsbD_setWidth, BitVec.getLsbD_ushiftRight,
      BitVec.getLsbD_shiftLeft, Field.getLsbD_extract]
    grind

theorem layout_extract_eq (h : f.immediate w = f.immediate w') :
    f.layout.extract w = f.layout.extract w' := by
  have hlt := Layout.toNat_extract_lt f.width_layout_le
  apply eq_of_setWidth_eq (hlt w) (hlt w')
  rw [← setWidth_immediate, ← setWidth_immediate, h]

theorem holds_immediate (f : Format) (w : Word) : f.Holds (f.immediate w) := by
  cases f
  case reg | system | fence => rfl
  case imm | load | store => exact fitsSigned_signExtend (by decide) (by decide) _
  case shift => exact Instr.rs2Field.toNat_extract_lt w
  case upper =>
    rw [Holds, immediate, BitVec.and_assoc]
    exact BitVec.and_zero
  case branch | jump =>
    refine ⟨Field.shiftLeft_and_mask 1 _, fitsSigned_shiftLeft_one (by decide) (by decide) ?_⟩
    exact fitsSigned_signExtend (by decide) (by decide) _

-- The fields that decoding takes for registers. Those of a system instruction must name register
-- zero.
def readFields : Format → List Field
  | .system => [Instr.rdField, Instr.rs1Field]
  | f => f.regFields

theorem mem_readFields {g : Field} (h : g ∈ f.readFields) :
    g = Instr.rdField ∨ g = Instr.rs1Field ∨ g = Instr.rs2Field := by
  revert g
  cases f <;> decide

-- No bit of a word is ignored, unless it is a fence.
theorem exists_holds (hf : f ≠ .fence) :
    ∀ i < 32, ∃ g ∈ f.keyFields ++ f.readFields ++ f.layout, g.Holds i := by
  cases f
  case fence => contradiction
  all_goals decide

end Format

theorem Op.format_eq_fence_iff {op : Op} : op.format = .fence ↔ op = .fence := by
  cases op <;> decide

theorem Reg.extract_eq_of_ofWord_eq {n : Nat} {w w' : Word}
    (h : ofWord (Field.extract ⟨n, 5⟩ w) = ofWord (Field.extract ⟨n, 5⟩ w')) :
    Field.extract ⟨n, 5⟩ w = Field.extract ⟨n, 5⟩ w' :=
  eq_of_setWidth_eq (Field.toNat_extract_lt ..) (Field.toNat_extract_lt ..) (Reg.mk.inj h)

-- Fields that cover a word determine it.
theorem Field.eq_of_extract_eq {fs : List Field} {w w' : Word}
    (hc : ∀ i < 32, ∃ g ∈ fs, g.Holds i) (h : ∀ g ∈ fs, g.extract w = g.extract w') : w = w' := by
  apply BitVec.eq_of_getLsbD_eq
  intro i hi
  have ⟨g, hg, hgi⟩ := hc i hi
  exact getLsbD_of_extract_eq (h g hg) hgi

namespace Instr

variable {i : Instr} {w w' : Word}

-- Where the operands of an instruction stand in a word that they are read from.
structure ReadFrom (w : Word) (i : Instr) : Prop where
  regs : i.RegsFit
  rd   : rdField ∈ i.op.format.readFields → i.rd = Reg.ofWord (rdField.extract w)
  rs1  : rs1Field ∈ i.op.format.readFields → i.rs1 = Reg.ofWord (rs1Field.extract w)
  rs2  : rs2Field ∈ i.op.format.readFields → i.rs2 = Reg.ofWord (rs2Field.extract w)
  imm  : i.imm = i.op.format.immediate w

theorem readFrom_of_operands? {op : Op} (h : operands? op w = some i) :
    i.op = op ∧ i.ReadFrom w := by
  simp only [operands?] at h
  split at h
  case h_9 hf =>
    split at h
    case isFalse => cases h
    case isTrue hz =>
      cases h
      simp only [rdField, rs1Field] at hz
      refine ⟨rfl, ⟨?_, ?_, ?_⟩, ?_, ?_, ?_, ?_⟩
      all_goals
        simp [bare, hf, Format.regFields, Format.readFields, Format.immediate, rdField, rs1Field,
          rs2Field, hz]
  all_goals
    rename_i hf
    cases h
    refine ⟨rfl, ⟨?_, ?_, ?_⟩, ?_, ?_, ?_, ?_⟩
    all_goals
      simp [register, immediate, sources, jump, bare, hf, Format.regFields, Format.readFields,
        Format.immediate, rdField, rs1Field, rs2Field]

theorem readFrom_of_decode (h : decode w = some i) : Key.ofWord w = i.op.key ∧ i.ReadFrom w := by
  have ⟨op, hop, hi⟩ := Option.bind_eq_some_iff.mp h
  have ⟨ho, hr⟩ := readFrom_of_operands? hi
  exact ⟨ho ▸ (Op.key_of_ofKey? hop).symm, hr⟩

theorem wellFormed_of_decode (h : decode w = some i) : i.WellFormed where
  toRegsFit := (readFrom_of_decode h).right.regs
  imm := (readFrom_of_decode h).right.imm ▸ Format.holds_immediate ..

-- Two words of one instruction are equal, as they are equal in every field of its format.
theorem decode_injective (h : decode w = some i) (h' : decode w' = some i)
    (hf : i.op.format ≠ .fence) : w = w' := by
  have ⟨hk, hr⟩ := readFrom_of_decode h
  have ⟨hk', hr'⟩ := readFrom_of_decode h'
  apply Field.eq_of_extract_eq (Format.exists_holds hf)
  intro g hg
  simp only [List.mem_append] at hg
  rcases hg with (hg | hg) | hg
  case inl.inl =>
    rw [← Key.fields_key, ← hk] at hg
    exact Key.ofWord_eq_iff.mp (hk.trans hk'.symm) g hg
  case inl.inr =>
    rcases Format.mem_readFields hg with rfl | rfl | rfl
    case inl     => exact Reg.extract_eq_of_ofWord_eq ((hr.rd hg).symm.trans (hr'.rd hg))
    case inr.inl => exact Reg.extract_eq_of_ofWord_eq ((hr.rs1 hg).symm.trans (hr'.rs1 hg))
    case inr.inr => exact Reg.extract_eq_of_ofWord_eq ((hr.rs2 hg).symm.trans (hr'.rs2 hg))
  case inr =>
    have himm := Format.layout_extract_eq (hr.imm.symm.trans hr'.imm)
    exact Layout.extract_field_eq (Format.width_layout_le _) himm g hg

theorem encode_fence (h : i.op = .fence) : i.encode = 0x0F := by
  rw [encode, h]
  rfl

end Instr

-- Whether a word is a fence. The operands of a fence do not count.
def Word.IsFence (w : Word) : Prop :=
  w.extractLsb' 0 7 = 0x0F ∧ w.extractLsb' 12 3 = 0

instance : DecidablePred Word.IsFence :=
  fun _ => inferInstanceAs (Decidable (_ ∧ _))

theorem Key.ofWord_eq_fence_iff {w : Word} : ofWord w = Op.fence.key ↔ w.IsFence := by
  constructor
  case mp =>
    intro h
    have hn : ¬((ofWord w).opcode = 0x37 ∨ (ofWord w).opcode = 0x17 ∨
        (ofWord w).opcode = 0x6F) := by
      rw [h]
      decide
    exact ⟨opcode_ofWord w ▸ congrArg opcode h, funct3_ofWord hn ▸ congrArg funct3 h⟩
  case mpr =>
    intro ⟨hop, hf3⟩
    simp only [ofWord, hop, hf3]
    rfl

namespace Instr

variable {i : Instr} {w w' : Word}

theorem op_eq_fence_iff (h : decode w = some i) : i.op = .fence ↔ w.IsFence := by
  rw [← Key.ofWord_eq_fence_iff, (readFrom_of_decode h).left]
  constructor
  case mp => exact congrArg Op.key
  case mpr =>
    intro hk
    have ho := Op.ofKey?_key i.op
    rw [hk, Op.ofKey?_key] at ho
    exact (Option.some.inj ho).symm

theorem decode_fence (h : w.IsFence) : decode w = some (bare .fence) := by
  rw [decode, Key.ofWord_eq_fence_iff.mpr h, Op.ofKey?_key]
  rfl

-- The operands of a fence are lost, so of all its words only the one without operands comes back.
theorem encode_decode (h : decode w = some i) (hf : i.op = .fence → w = 0x0F) : i.encode = w := by
  by_cases ho : i.op = .fence
  case pos => rw [encode_fence ho, hf ho]
  case neg =>
    have hn := mt Op.format_eq_fence_iff.mp ho
    exact decode_injective (decode_encode (wellFormed_of_decode h)) h hn

end Instr

end RV32IM
