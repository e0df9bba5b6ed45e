import RV32IM.Instr.Decode
import RV32IM.Proofs.Layout.Lens
import RV32IM.Proofs.Layout.SignExtend
import RV32IM.Session

-- Encoding and decoding of instructions. All formats are one scheme: the fixed bits of the
-- operation, the registers that the format has, and an immediate that is scattered over a layout
-- once its low bits, which are known, are dropped. Decoding gives back every instruction that its
-- format can hold.

namespace RV32IM

namespace Format

-- The fields that decide whether a word is an instruction of the format.
def keyFields : Format → List Field
  | .reg | .shift => [⟨0, 7⟩, ⟨12, 3⟩, ⟨25, 7⟩]
  | .imm | .load | .store | .branch | .fence => [⟨0, 7⟩, ⟨12, 3⟩]
  | .upper | .jump => [⟨0, 7⟩]
  | .system => [⟨0, 7⟩, ⟨12, 3⟩, ⟨20, 12⟩]

def regFields : Format → List Field
  | .reg => [Instr.rdField, Instr.rs1Field, Instr.rs2Field]
  | .imm | .load | .shift => [Instr.rdField, Instr.rs1Field]
  | .store | .branch => [Instr.rs1Field, Instr.rs2Field]
  | .upper | .jump => [Instr.rdField]
  | .system | .fence => []

def layout : Format → Layout
  | .imm | .load => Layout.iImm
  | .shift => [Instr.rs2Field]
  | .store => Layout.sImm
  | .branch => Layout.bImm
  | .upper => Layout.uImm
  | .jump => Layout.jImm
  | .reg | .system | .fence => []

-- The number of low bits of an immediate that are not coded.
def scale : Format → Nat
  | .branch | .jump => 1
  | .upper => 12
  | .reg | .imm | .load | .shift | .store | .system | .fence => 0

-- Whether an instruction of the format can hold an immediate.
def Holds (v : Word) : Format → Prop
  | .imm | .load | .store => fitsSigned v.toInt 12
  | .shift => v < 32
  | .branch => v &&& 1 = 0 ∧ fitsSigned v.toInt 13
  | .upper => v &&& 0xFFF = 0
  | .jump => v &&& 1 = 0 ∧ fitsSigned v.toInt 21
  | .reg | .system | .fence => v = 0

-- The immediate that decoding reads from a word.
def immediate (w : Word) : Format → Word
  | .imm | .load => Layout.iImm.extractSigned w
  | .shift => Instr.rs2Field.extract w
  | .store => Layout.sImm.extractSigned w
  | .branch => Layout.bImm.extractSigned w <<< 1
  | .upper => w &&& 0xFFFFF000
  | .jump => Layout.jImm.extractSigned w <<< 1
  | .reg | .system | .fence => 0

theorem sound_fields (f : Format) : Layout.Sound (f.layout ++ f.regFields ++ f.keyFields) := by
  cases f <;> exact ⟨by decide, by decide⟩

variable {f : Format} {g : Field}

theorem sound_layout (f : Format) : f.layout.Sound := by
  cases f <;> exact ⟨by decide, by decide⟩

theorem layout_disjoint_reg (hg : g ∈ f.regFields) : ∀ l ∈ f.layout, l.Disjoint g := by
  have h := List.pairwise_append.mp (List.pairwise_append.mp f.sound_fields.disjoint).left
  exact fun l hl => h.right.right l hl g hg

theorem disjoint_key (hg : g ∈ f.keyFields) : ∀ l ∈ f.layout ++ f.regFields, l.Disjoint g := by
  have h := List.pairwise_append.mp f.sound_fields.disjoint
  exact fun l hl => h.right.right l hl g hg

theorem and_high (w : Word) :
    w &&& (0xFFFFF000 : Word) = (Field.extract ⟨12, 20⟩ w) <<< 12 := by
  have h : (0xFFFFF000 : Word) = ~~~Field.mask ⟨0, 12⟩ := rfl
  apply BitVec.eq_of_getLsbD_eq
  intro i hi
  simp only [h, BitVec.getLsbD_and, BitVec.getLsbD_not, BitVec.getLsbD_shiftLeft,
    Field.getLsbD_mask, Field.getLsbD_extract]
  grind

theorem ushiftRight_shiftLeft_of_and_low {v : Word} (h : v &&& 0xFFF = 0) :
    (v >>> 12) <<< 12 = v := by
  have hm : (0xFFF : Word) = Field.mask ⟨0, 12⟩ := rfl
  apply BitVec.eq_of_getLsbD_eq
  intro i hi
  have := congrArg (BitVec.getLsbD · i) h
  simp only [hm, BitVec.getLsbD_and, BitVec.getLsbD_shiftLeft, BitVec.getLsbD_ushiftRight,
    Field.getLsbD_mask] at this ⊢
  grind

-- An immediate that an instruction can hold is known from the bits that its layout has room for.
theorem immediate_eq {w v : Word} (hv : f.Holds v)
    (hw : (f.layout.extract w).setWidth f.layout.width = (v >>> f.scale).setWidth f.layout.width) :
    f.immediate w = v := by
  cases f
  case reg | system | fence => exact hv.symm
  case imm | load | store => exact signExtend_eq_of_fitsSigned (by decide) hv hw
  case branch | jump => exact signExtend_shiftLeft_one (by decide) (by decide) hv.left hv.right hw
  case shift =>
    rw [layout, Layout.extract_singleton] at hw
    exact eq_of_setWidth_eq (Instr.rs2Field.toNat_extract_lt w) hv hw
  case upper =>
    rw [layout, Layout.uImm, Layout.extract_singleton] at hw
    have hlt : (v >>> 12).toNat < 2 ^ 20 := BitVec.toNat_ushiftRight_lt v 12 (by decide)
    have hx := eq_of_setWidth_eq (Field.toNat_extract_lt ⟨12, 20⟩ w) hlt hw
    rw [immediate, and_high, hx, ushiftRight_shiftLeft_of_and_low hv]

end Format

namespace Op

theorem extract_reg_fixedBits {op : Op} {g : Field} (h : g ∈ op.format.regFields) :
    g.extract op.fixedBits = 0 := by
  revert g
  cases op <;> decide

theorem extract_layout_fixedBits (op : Op) : op.format.layout.extract op.fixedBits = 0 := by
  cases op <;> decide

theorem clear_layout_fixedBits (op : Op) : op.format.layout.clear op.fixedBits = op.fixedBits := by
  cases op <;> decide

end Op

-- The bits of a field as a number of the field's width.
theorem extractLsb'_eq_extract (w : Word) (pos width : Nat) :
    w.extractLsb' pos width = (Field.extract ⟨pos, width⟩ w).setWidth width := by
  apply BitVec.eq_of_getLsbD_eq
  intro i hi
  simp only [BitVec.getLsbD_extractLsb', BitVec.getLsbD_setWidth, Field.getLsbD_extract]
  by_cases h : i < 32 <;> grind

theorem extractLsb'_eq_iff {w w' : Word} {pos width : Nat} :
    w.extractLsb' pos width = w'.extractLsb' pos width ↔
      Field.extract ⟨pos, width⟩ w = Field.extract ⟨pos, width⟩ w' := by
  rw [extractLsb'_eq_extract, extractLsb'_eq_extract]
  constructor
  case mp  => exact eq_of_setWidth_eq (Field.toNat_extract_lt ..) (Field.toNat_extract_lt ..)
  case mpr => exact fun h => h ▸ rfl

namespace Key

-- The fields that count in a word with the key.
def fields (k : Key) : List Field :=
  if k.opcode = 0x37 ∨ k.opcode = 0x17 ∨ k.opcode = 0x6F then [⟨0, 7⟩]
  else if k.opcode = 0x33 ∨ k.opcode = 0x13 ∧ (k.funct3 = 1 ∨ k.funct3 = 5) then
    [⟨0, 7⟩, ⟨12, 3⟩, ⟨25, 7⟩]
  else if k.opcode = 0x73 then [⟨0, 7⟩, ⟨12, 3⟩, ⟨20, 12⟩]
  else [⟨0, 7⟩, ⟨12, 3⟩]

theorem fields_key (op : Op) : op.key.fields = op.format.keyFields := by
  cases op <;> rfl

theorem ofWord_fixedBits (op : Op) : ofWord op.fixedBits = op.key := by
  cases op <;> decide

variable {w w' : Word}

theorem opcode_ofWord (w : Word) : (ofWord w).opcode = w.extractLsb' 0 7 := by
  simp only [ofWord]
  repeat' split
  all_goals rfl

theorem funct3_ofWord
    (h : ¬((ofWord w).opcode = 0x37 ∨ (ofWord w).opcode = 0x17 ∨ (ofWord w).opcode = 0x6F)) :
    (ofWord w).funct3 = w.extractLsb' 12 3 := by
  rw [opcode_ofWord] at h
  simp only [ofWord, h, if_false]
  repeat' split
  all_goals rfl

-- The other fields of a word do not count.
theorem ofWord_eq_of_extract_eq (h : ∀ g ∈ (ofWord w).fields, g.extract w = g.extract w') :
    ofWord w = ofWord w' := by
  unfold fields at h
  split at h
  case isTrue h₁ =>
    simp only [List.forall_mem_cons, ← extractLsb'_eq_iff] at h
    rw [opcode_ofWord] at h₁
    simp only [ofWord, ← h, if_pos h₁]
  case isFalse h₁ =>
    rw [funct3_ofWord h₁] at h
    rw [opcode_ofWord] at h₁ h
    split at h
    case isTrue h₂ =>
      simp only [List.forall_mem_cons, ← extractLsb'_eq_iff] at h
      simp only [ofWord, ← h, if_neg h₁, if_pos h₂]
    case isFalse h₂ =>
      split at h
      case isTrue h₃ =>
        simp only [List.forall_mem_cons, ← extractLsb'_eq_iff] at h
        simp only [ofWord, ← h, if_neg h₁, if_neg h₂, if_pos h₃]
      case isFalse h₃ =>
        simp only [List.forall_mem_cons, ← extractLsb'_eq_iff] at h
        simp only [ofWord, ← h, if_neg h₁, if_neg h₂, if_neg h₃]

theorem extract_eq_of_ofWord_eq (h : ofWord w = ofWord w') :
    ∀ g ∈ (ofWord w).fields, g.extract w = g.extract w' := by
  have hop := congrArg opcode h
  have hf3 := congrArg funct3 h
  have hext := congrArg ext h
  rw [opcode_ofWord, opcode_ofWord] at hop
  unfold fields
  split
  case isTrue => simpa using extractLsb'_eq_iff.mp hop
  case isFalse h₁ =>
    rw [funct3_ofWord h₁, funct3_ofWord (h ▸ h₁)] at hf3
    have hlow := And.intro (extractLsb'_eq_iff.mp hop) (extractLsb'_eq_iff.mp hf3)
    rw [funct3_ofWord h₁]
    rw [opcode_ofWord] at h₁ ⊢
    simp only [ofWord, ← hop, ← hf3, h₁, if_false] at hext
    split
    case isTrue h₂ =>
      simp only [h₂, if_true] at hext
      have hf7 := congrArg (BitVec.setWidth 7) hext
      simp only [BitVec.setWidth_setWidth_of_le, Nat.reduceLeDiff, BitVec.setWidth_eq] at hf7
      simpa using ⟨hlow.left, hlow.right, extractLsb'_eq_iff.mp hf7⟩
    case isFalse h₂ =>
      split
      case isTrue h₃ =>
        simp only [h₃, if_true] at hext
        simpa using ⟨hlow.left, hlow.right, extractLsb'_eq_iff.mp hext⟩
      case isFalse => simpa using hlow

theorem ofWord_eq_iff :
    ofWord w = ofWord w' ↔ ∀ g ∈ (ofWord w).fields, g.extract w = g.extract w' :=
  ⟨extract_eq_of_ofWord_eq, ofWord_eq_of_extract_eq⟩

theorem ofWord_eq_key {op : Op}
    (h : ∀ g ∈ op.format.keyFields, g.extract op.fixedBits = g.extract w) : ofWord w = op.key := by
  rw [← fields_key, ← ofWord_fixedBits] at h
  rw [← ofWord_fixedBits, ofWord_eq_iff.mpr h]

end Key

namespace Instr

-- Whether an instruction names no register that its format lacks.
structure RegsFit (i : Instr) : Prop where
  rd  : rdField ∉ i.op.format.regFields → i.rd = .zero
  rs1 : rs1Field ∉ i.op.format.regFields → i.rs1 = .zero
  rs2 : rs2Field ∉ i.op.format.regFields → i.rs2 = .zero

structure WellFormed (i : Instr) : Prop extends RegsFit i where
  imm : i.op.format.Holds i.imm

-- The instruction that has those of the operands that the format of its operation has.
def ofOperands (op : Op) (rd rs1 rs2 : Reg) (v : Word) : Instr :=
  match op.format with
  | .reg => register op rd rs1 rs2
  | .imm | .load | .shift => immediate op rd rs1 v
  | .store | .branch => sources op rs1 rs2 v
  | .upper => upper op rd v
  | .jump => jump op rd v
  | .system | .fence => bare op

section Builders

variable {op : Op} {rd rs1 rs2 : Reg} {v : Word}

theorem op_ofOperands : (ofOperands op rd rs1 rs2 v).op = op := by
  unfold ofOperands
  split <;> rfl

theorem regsFit_ofOperands : (ofOperands op rd rs1 rs2 v).RegsFit := by
  unfold ofOperands
  split
  all_goals
    rename_i h
    constructor
    all_goals
      simp [register, immediate, sources, upper, jump, bare, h, Format.regFields, rdField, rs1Field,
        rs2Field]

theorem regsFit_immediate (h : op.TakesImmediate) :
    (immediate op rd rs1 v).RegsFit := by
  have ho : ofOperands op rd rs1 .zero v = immediate op rd rs1 v := by
    rcases h with h | h <;> simp only [ofOperands, h]
  exact ho ▸ regsFit_ofOperands

theorem regsFit_sources (h : op.format = .store ∨ op.format = .branch) :
    (sources op rs1 rs2 v).RegsFit := by
  have ho : ofOperands op .zero rs1 rs2 v = sources op rs1 rs2 v := by
    rcases h with h | h <;> simp only [ofOperands, h]
  exact ho ▸ regsFit_ofOperands

theorem regsFit_jump (h : op.format = .upper ∨ op.format = .jump) : (jump op rd v).RegsFit := by
  rcases h with h | h <;>
    constructor <;> simp [jump, h, Format.regFields, rdField, rs1Field, rs2Field]

-- An instruction is the word that its operands make of the fixed bits of its operation.
theorem encode_register (h : op.format = .reg) :
    (register op rd rs1 rs2).encode = encodeRegister op.fixedBits rd rs1 rs2 := by
  simp only [encode, register, h]

theorem encode_immediate (h : op.TakesImmediate) :
    (immediate op rd rs1 v).encode = encodeImmediate op.fixedBits rd rs1 v := by
  rcases h with h | h <;> simp only [encode, immediate, h]

theorem encode_shift (h : op.format = .shift) :
    (immediate op rd rs1 v).encode = encodeShift op.fixedBits rd rs1 v := by
  simp only [encode, immediate, h]

theorem encode_store (h : op.format = .store) :
    (sources op rs1 rs2 v).encode = encodeStore op.fixedBits rs1 rs2 v := by
  simp only [encode, sources, h]

theorem encode_branch (h : op.format = .branch) :
    (sources op rs1 rs2 v).encode = encodeBranch op.fixedBits rs1 rs2 v := by
  simp only [encode, sources, h]

theorem encode_upper (h : op.format = .upper) :
    (upper op rd v).encode = encodeUpper op.fixedBits rd v := by
  -- The bits that shifting back and forth loses are above those that are coded.
  have hv : (v <<< 12) >>> 12 &&& Field.mask ⟨12, 20⟩ = v &&& Field.mask ⟨12, 20⟩ := by
    apply BitVec.eq_of_getLsbD_eq
    intro i hi
    simp only [BitVec.getLsbD_and, BitVec.getLsbD_ushiftRight, BitVec.getLsbD_shiftLeft,
      Field.getLsbD_mask]
    grind
  simp only [encode, upper, h, encodeUpper, Layout.uImm, Layout.insert, Layout.width,
    BitVec.ushiftRight_zero, Field.insert, hv]

theorem encode_jump (h : op.format = .jump) :
    (jump op rd v).encode = encodeJump op.fixedBits rd v := by
  simp only [encode, jump, h]

end Builders

variable {i : Instr} {g : Field} {w : Word}

theorem insert_reg_zero (f : Field) (w : Word) : f.insert w Reg.zero.toWord = w :=
  f.insert_zero w

theorem encode_eq (hi : i.RegsFit) :
    i.encode = i.op.format.layout.insert (insertRegs i.op.fixedBits i.rd i.rs1 i.rs2)
      (i.imm >>> i.op.format.scale) := by
  have ⟨hrd, hrs1, hrs2⟩ := hi
  cases h : i.op.format
  all_goals simp [h, Format.regFields, rdField, rs1Field, rs2Field] at hrd hrs1 hrs2
  all_goals
    simp [encode, encodeRegister, encodeImmediate, encodeShift, encodeStore, encodeBranch,
      encodeUpper, encodeJump, Format.layout, Format.scale, Layout.insert, Layout.width, *]
  all_goals simp [insertRegs, insert_reg_zero]

-- Only the fields that the format has are written, as a register that it lacks is zero.
theorem insertRegs_induction {P : Word → Prop} (hi : i.RegsFit) (hw : P w)
    (hs : ∀ f ∈ i.op.format.regFields, ∀ w v, P w → P (f.insert w v)) :
    P (insertRegs w i.rd i.rs1 i.rs2) := by
  have step {f : Field} {r : Reg} {w : Word} (hw : P w)
      (hz : f ∉ i.op.format.regFields → r = .zero) : P (f.insert w r.toWord) := by
    by_cases hf : f ∈ i.op.format.regFields
    case pos => exact hs f hf _ _ hw
    case neg => rwa [hz hf, insert_reg_zero]
  exact step (step (step hw hi.rd) hi.rs1) hi.rs2

theorem extract_key_encode (hi : i.RegsFit) (hg : g ∈ i.op.format.keyFields) :
    g.extract i.encode = g.extract i.op.fixedBits := by
  have hd := Format.disjoint_key hg
  rw [encode_eq hi, Layout.extract_insert_of_disjoint fun l hl => hd l (List.mem_append_left _ hl)]
  refine insertRegs_induction (P := (g.extract · = _)) hi rfl fun f hf w v hw => ?_
  rw [Field.extract_insert_of_disjoint (hd f (List.mem_append_right _ hf)), hw]

theorem ofWord_encode (hi : i.RegsFit) : Key.ofWord i.encode = i.op.key :=
  Key.ofWord_eq_key fun _ hg => (extract_key_encode hi hg).symm

theorem extract_reg_encode (hi : i.RegsFit) (hg : g ∈ i.op.format.regFields) :
    g.extract i.encode = g.extract (insertRegs i.op.fixedBits i.rd i.rs1 i.rs2) := by
  rw [encode_eq hi, Layout.extract_insert_of_disjoint (Format.layout_disjoint_reg hg)]

-- What a register field holds once a register has been inserted into it.
theorem ofWord_extract_insert {n : Nat} (hn : n + 5 ≤ 32) (hw : Field.extract ⟨n, 5⟩ w = 0)
    (r : Reg) : Reg.ofWord (Field.extract ⟨n, 5⟩ (Field.insert ⟨n, 5⟩ w r.toWord)) = r := by
  have hr : r.toWord &&& Field.mask ⟨n, 5⟩ = r.toWord := by
    apply BitVec.eq_of_getLsbD_eq
    intro i hi
    simp only [Reg.toWord, BitVec.getLsbD_and, BitVec.getLsbD_setWidth, Field.getLsbD_mask]
    grind
  rw [Field.extract_insert hn, hw, hr]
  simp

theorem extract_rd_encode (hi : i.RegsFit) (h : rdField ∈ i.op.format.regFields) :
    Reg.ofWord (rdField.extract i.encode) = i.rd := by
  rw [extract_reg_encode hi h, insertRegs, Field.extract_insert_of_disjoint (by decide),
    Field.extract_insert_of_disjoint (by decide)]
  exact ofWord_extract_insert (by decide) (Op.extract_reg_fixedBits h) _

theorem extract_rs1_encode (hi : i.RegsFit) (h : rs1Field ∈ i.op.format.regFields) :
    Reg.ofWord (rs1Field.extract i.encode) = i.rs1 := by
  rw [extract_reg_encode hi h, insertRegs, Field.extract_insert_of_disjoint (by decide)]
  apply ofWord_extract_insert (by decide)
  rw [← rs1Field, Field.extract_insert_of_disjoint (by decide), Op.extract_reg_fixedBits h]

theorem extract_rs2_encode (hi : i.RegsFit) (h : rs2Field ∈ i.op.format.regFields) :
    Reg.ofWord (rs2Field.extract i.encode) = i.rs2 := by
  rw [extract_reg_encode hi h, insertRegs]
  apply ofWord_extract_insert (by decide)
  rw [← rs2Field, Field.extract_insert_of_disjoint (by decide),
    Field.extract_insert_of_disjoint (by decide), Op.extract_reg_fixedBits h]

theorem extract_layout_encode (hi : i.RegsFit) :
    i.op.format.layout.extract i.encode =
      Field.extract ⟨0, i.op.format.layout.width⟩ (i.imm >>> i.op.format.scale) := by
  have hz : i.op.format.layout.extract (insertRegs i.op.fixedBits i.rd i.rs1 i.rs2) = 0 := by
    refine insertRegs_induction (P := (i.op.format.layout.extract · = 0)) hi
      i.op.extract_layout_fixedBits fun f hf w v hw => ?_
    rw [Layout.extract_fieldInsert_of_disjoint, hw]
    exact fun l hl => (Format.layout_disjoint_reg hf l hl).symm
  rw [encode_eq hi, Layout.extract_insert (Format.sound_layout _), hz]
  simp

theorem setWidth_extract_layout (hi : i.RegsFit) :
    (i.op.format.layout.extract i.encode).setWidth i.op.format.layout.width =
      (i.imm >>> i.op.format.scale).setWidth i.op.format.layout.width := by
  rw [extract_layout_encode hi, Field.setWidth_extract_low]

theorem extract_regs_system (h : i.op.format = .system) :
    Reg.ofWord (rdField.extract i.encode) = .zero ∧
      Reg.ofWord (rs1Field.extract i.encode) = .zero := by
  have he : i.encode = i.op.fixedBits := by simp [encode, h]
  rw [he]
  cases hop : i.op <;> simp only [hop] at h <;> first | contradiction | decide

theorem operands?_encode (hi : i.WellFormed) : operands? i.op i.encode = some i := by
  have himm := Format.immediate_eq hi.imm (setWidth_extract_layout hi.toRegsFit)
  have ⟨⟨hrd, hrs1, hrs2⟩, _⟩ := hi
  have rd := extract_rd_encode hi.toRegsFit
  have rs1 := extract_rs1_encode hi.toRegsFit
  have rs2 := extract_rs2_encode hi.toRegsFit
  have sys := extract_regs_system (i := i)
  generalize i.encode = w at *
  obtain ⟨op, _, _, _, _⟩ := i
  cases h : op.format
  all_goals
    simp [h, Format.regFields, rdField, rs1Field, rs2Field] at hrd hrs1 hrs2 rd rs1 rs2
    simp [h, rdField, rs1Field] at himm sys
    subst_vars
    simp [operands?, h, register, immediate, sources, jump, bare, Format.immediate, rdField,
      rs1Field, rs2Field]
  case system => simp [sys]

theorem decode_encode (hi : i.WellFormed) : decode i.encode = some i := by
  rw [decode, ofWord_encode hi.toRegsFit, Op.ofKey?_key, Option.bind_some, operands?_encode hi]

end Instr

end RV32IM
