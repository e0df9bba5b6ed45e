import RV32IM.Proofs.Link.Relocation
import RV32IM.Proofs.Link.Value

-- Placeholders: the words that statements leave for the linker. A statement can be given the fixed
-- bits of any operation, and what it leaves is only certain to take a number if these bits select
-- the layout of the statement and are zero there, as the bits of an operation with that layout are.

namespace RV32IM

-- The word at an offset in an image.
def Word.atOffset (bs : List Byte) (n : Nat) : Word :=
  ofBytes ((bs.drop n).take 4)

theorem Word.atOffset_append (a : List Byte) (w : Word) (c : List Byte) :
    atOffset (a ++ (w.toBytes ++ c)) a.length = w := by
  rw [atOffset, List.drop_left, List.take_left' w.length_toBytes, ofBytes_toBytes]

namespace RelocKind

-- Whether a word selects a layout for the numbers of a kind, and is zero there.
structure Fills (kind : RelocKind) (l : Layout) (w : Word) : Prop where
  layout : kind.layout w = l
  vacant : l.clear w = w

variable {kind : RelocKind} {l : Layout} {f : Field} {w : Word}

theorem layout_insert (h : f.Disjoint ⟨0, 7⟩) (v : Word) :
    kind.layout (f.insert w v) = kind.layout w := by
  cases kind
  case lo =>
    simp only [layout, Relocation.lowLayout,
      extractLsb'_eq_iff.mpr (Field.extract_insert_of_disjoint h)]
  all_goals rfl

namespace Fills

theorem insert (h : kind.Fills l w) (hd : f.Disjoint ⟨0, 7⟩) (hl : ∀ g ∈ l, f.Disjoint g)
    (v : Word) : kind.Fills l (f.insert w v) where
  layout := (layout_insert hd v).trans h.layout
  vacant := by rw [Layout.clear_fieldInsert_of_disjoint hl, h.vacant]

-- Registers go elsewhere.
theorem insertRegs (h : kind.Fills l w) {rd rs1 rs2 : Reg}
    (hrd  : rd = .zero ∨ ∀ g ∈ l, Instr.rdField.Disjoint g)
    (hrs1 : rs1 = .zero ∨ ∀ g ∈ l, Instr.rs1Field.Disjoint g)
    (hrs2 : rs2 = .zero ∨ ∀ g ∈ l, Instr.rs2Field.Disjoint g) :
    kind.Fills l (Instr.insertRegs w rd rs1 rs2) := by
  have step {f : Field} {r : Reg} {w : Word} (h : kind.Fills l w) (hd : f.Disjoint ⟨0, 7⟩)
      (hr : r = .zero ∨ ∀ g ∈ l, f.Disjoint g) : kind.Fills l (f.insert w r.toWord) := by
    rcases hr with rfl | hl
    case inl => rwa [Instr.insert_reg_zero]
    case inr => exact h.insert hd hl _
  exact step (step (step h (by decide) hrd) (by decide) hrs1) (by decide) hrs2

theorem replace_eq (h : kind.Fills l w) (v : Word) :
    (kind.layout w).replace w v = l.insert w v := by
  rw [h.layout, Layout.replace, h.vacant]

theorem extract_eq_zero (h : kind.Fills l w) : ∀ f ∈ kind.layout w, f.extract w = 0 := by
  intro f hf
  rw [h.layout] at hf
  rw [← h.vacant]
  exact Layout.extract_clear hf w

end Fills

theorem fills_fixedBits {op : Op} {f : Format} (hop : op.format = f)
    (hs : kind.Suits f) : kind.Fills f.layout op.fixedBits where
  layout := hop ▸ Relocation.layout_of_key (Key.ofWord_fixedBits op) (hop ▸ hs)
  vacant := hop ▸ op.clear_layout_fixedBits

end RelocKind

-- The words that the layouts of operands leave when their number is zero.
section Layouts

open Relocation

variable {bits : Word} {rd rs1 rs2 : Reg}

namespace Instr

theorem encodeImmediate_zero : encodeImmediate bits rd rs1 0 = insertRegs bits rd rs1 .zero :=
  Layout.insert_zero _ _

theorem encodeStore_zero : encodeStore bits rs1 rs2 0 = insertRegs bits .zero rs1 rs2 :=
  Layout.insert_zero _ _

theorem encodeBranch_zero : encodeBranch bits rs1 rs2 0 = insertRegs bits .zero rs1 rs2 :=
  Layout.insert_zero _ _

theorem encodeUpper_zero : encodeUpper bits rd 0 = insertRegs bits rd .zero .zero :=
  Layout.insert_zero _ _

theorem encodeJump_zero : encodeJump bits rd 0 = insertRegs bits rd .zero .zero :=
  Layout.insert_zero _ _

end Instr

namespace RelocKind.Fills

theorem immediate (h : lo.Fills Layout.iImm bits) :
    lo.Fills Layout.iImm (Instr.encodeImmediate bits rd rs1 0) :=
  Instr.encodeImmediate_zero ▸
    h.insertRegs (.inr (by decide)) (.inr (by decide)) (.inl rfl)

theorem store (h : lo.Fills Layout.sImm bits) :
    lo.Fills Layout.sImm (Instr.encodeStore bits rs1 rs2 0) :=
  Instr.encodeStore_zero ▸ h.insertRegs (.inl rfl) (.inr (by decide)) (.inr (by decide))

theorem branch (h : RelocKind.branch.Fills Layout.bImm bits) :
    RelocKind.branch.Fills Layout.bImm (Instr.encodeBranch bits rs1 rs2 0) :=
  Instr.encodeBranch_zero ▸ h.insertRegs (.inl rfl) (.inr (by decide)) (.inr (by decide))

theorem upper (h : hi.Fills Layout.uImm bits) :
    hi.Fills Layout.uImm (Instr.encodeUpper bits rd 0) :=
  Instr.encodeUpper_zero ▸ h.insertRegs (.inr (by decide)) (.inl rfl) (.inl rfl)

theorem jump (h : RelocKind.jump.Fills Layout.jImm bits) :
    RelocKind.jump.Fills Layout.jImm (Instr.encodeJump bits rd 0) :=
  Instr.encodeJump_zero ▸ h.insertRegs (.inr (by decide)) (.inl rfl) (.inl rfl)

end RelocKind.Fills

namespace Relocation

-- Filling in a number gives what the number would have given at once.
theorem fill_encodeImmediate (h : RelocKind.lo.Fills Layout.iImm bits) (v : Word) :
    fill (Instr.encodeImmediate bits rd rs1 0) v .lo = Instr.encodeImmediate bits rd rs1 v :=
  (h.immediate.replace_eq v).trans (by rw [Instr.encodeImmediate_zero, Instr.encodeImmediate])

theorem fill_encodeStore (h : RelocKind.lo.Fills Layout.sImm bits) (v : Word) :
    fill (Instr.encodeStore bits rs1 rs2 0) v .lo = Instr.encodeStore bits rs1 rs2 v :=
  (h.store.replace_eq v).trans (by rw [Instr.encodeStore_zero, Instr.encodeStore])

theorem fill_encodeBranch (h : RelocKind.branch.Fills Layout.bImm bits) (v : Word) :
    fill (Instr.encodeBranch bits rs1 rs2 0) v .branch = Instr.encodeBranch bits rs1 rs2 v :=
  (h.branch.replace_eq _).trans (by rw [Instr.encodeBranch_zero, Instr.encodeBranch])

theorem fill_encodeUpper (h : RelocKind.hi.Fills Layout.uImm bits) (v : Word) :
    fill (Instr.encodeUpper bits rd 0) v .hi = Instr.encodeUpper bits rd v :=
  (h.upper.replace_eq v).trans (by rw [Instr.encodeUpper_zero, Instr.encodeUpper])

theorem fill_encodeJump (h : RelocKind.jump.Fills Layout.jImm bits) (v : Word) :
    fill (Instr.encodeJump bits rd 0) v .jump = Instr.encodeJump bits rd v :=
  (h.jump.replace_eq _).trans (by rw [Instr.encodeJump_zero, Instr.encodeJump])

end Relocation

end Layouts

namespace Stmt

-- Whether a symbol that a statement names can be filled in where a number would have gone.
def Fillable : Stmt → Prop
  | emitImmediate bits _ _ imm => imm.Symbolic → RelocKind.lo.Fills Layout.iImm bits
  | emitStore bits _ _ imm => imm.Symbolic → RelocKind.lo.Fills Layout.sImm bits
  | emitBranch bits _ _ target => target.Symbolic → RelocKind.branch.Fills Layout.bImm bits
  | emitUpper bits _ imm => imm.Symbolic → RelocKind.hi.Fills Layout.uImm bits
  | emitJump bits _ target => target.Symbolic → RelocKind.jump.Fills Layout.jImm bits
  | _ => True

-- Whether the fixed bits of a statement are those of an operation with its layout.
def Matched : Stmt → Prop
  | emitImmediate bits _ _ _ => ∃ op : Op, op.TakesImmediate ∧ bits = op.fixedBits
  | emitStore bits _ _ _ => ∃ op : Op, op.format = .store ∧ bits = op.fixedBits
  | emitBranch bits _ _ _ => ∃ op : Op, op.format = .branch ∧ bits = op.fixedBits
  | emitUpper bits _ _ => ∃ op : Op, op.format = .upper ∧ bits = op.fixedBits
  | emitJump bits _ _ => ∃ op : Op, op.format = .jump ∧ bits = op.fixedBits
  | _ => True

-- Whether a relocation is what a statement adds to those of a session.
def Records (st : Stmt) (s : Session) (r : Relocation) : Prop :=
  (s.exec st).relocations = s.relocations.push r

theorem Matched.fillable {st : Stmt} (h : st.Matched) : st.Fillable := by
  cases st
  case emitImmediate =>
    obtain ⟨op, hop | hop, rfl⟩ := h
    case inl => exact fun _ => RelocKind.fills_fixedBits hop (Or.inl rfl)
    case inr => exact fun _ => RelocKind.fills_fixedBits hop (Or.inr (Or.inl rfl))
  case emitStore =>
    obtain ⟨op, hop, rfl⟩ := h
    exact fun _ => RelocKind.fills_fixedBits hop (Or.inr (Or.inr rfl))
  case emitBranch | emitUpper | emitJump =>
    obtain ⟨op, hop, rfl⟩ := h
    exact fun _ => RelocKind.fills_fixedBits hop rfl
  all_goals trivial

-- What is left for a symbol is zero where it is to be filled in.
theorem Leaves.extract_eq_zero {st : Stmt} {kind : RelocKind} {w : Word} (h : st.Leaves kind w)
    (hf : st.Fillable) : ∀ f ∈ kind.layout w, f.extract w = 0 := by
  cases h
  case immediate h => exact (hf h).immediate.extract_eq_zero
  case store h => exact (hf h).store.extract_eq_zero
  case branch h => exact (hf h).branch.extract_eq_zero
  case upper h => exact (hf h).upper.extract_eq_zero
  case jump h => exact (hf h).jump.extract_eq_zero
  case wordOf => exact fun f _ => f.extract_zero

-- An instruction is kept with the immediate zero.
theorem wellFormed_of_imm_eq_zero {i : Instr} (hi : i.RegsFit) (h0 : i.imm = 0) :
    i.WellFormed where
  toRegsFit := hi
  imm := by
    rw [h0]
    cases i.op.format
    case branch | jump => exact ⟨rfl, rfl⟩
    case shift => exact (by decide : (0 : Word) < 32)
    all_goals exact rfl

-- The fixed bits of an operation leave an instruction that only lacks its immediate.
theorem Leaves.exists_decode {st : Stmt} {kind : RelocKind} {w : Word} (h : st.Leaves kind w)
    (hm : st.Matched) (hk : kind ≠ .word) :
    ∃ i, Instr.decode w = some i ∧ kind.Suits i.op.format := by
  have decodes {kind : RelocKind} {i : Instr} {w : Word} (hw : i.encode = w) (hi : i.RegsFit)
      (h0 : i.imm = 0) (hs : kind.Suits i.op.format) :
      ∃ i, Instr.decode w = some i ∧ kind.Suits i.op.format :=
    ⟨i, hw ▸ Instr.decode_encode (wellFormed_of_imm_eq_zero hi h0), hs⟩
  cases h
  case immediate =>
    obtain ⟨op, hop, rfl⟩ := hm
    exact decodes (Instr.encode_immediate hop) (Instr.regsFit_immediate hop) rfl
      (hop.imp_right .inl)
  case store =>
    obtain ⟨op, hop, rfl⟩ := hm
    exact decodes (Instr.encode_store hop) (Instr.regsFit_sources (.inl hop)) rfl
      (Or.inr (Or.inr hop))
  case branch =>
    obtain ⟨op, hop, rfl⟩ := hm
    exact decodes (Instr.encode_branch hop) (Instr.regsFit_sources (.inr hop)) rfl hop
  case upper =>
    obtain ⟨op, hop, rfl⟩ := hm
    exact decodes (Instr.encode_upper hop) (Instr.regsFit_jump (.inl hop)) rfl hop
  case jump =>
    obtain ⟨op, hop, rfl⟩ := hm
    exact decodes (Instr.encode_jump hop) (Instr.regsFit_jump (.inr hop)) rfl hop
  case wordOf => exact absurd rfl hk

end Stmt

namespace Session

variable {s : Session} {st : Stmt} {r : Relocation}

-- What a statement records is where the statement left its word, which nothing changes later.
theorem exists_leaves_of_records (hr : st.Records s r) (post : List Stmt) :
    ∃ w, st.Leaves r.kind w ∧ r.site = s.cursor ∧ r ∈ (s.run (st :: post)).relocations ∧
      s.image.size + 4 ≤ (s.run (st :: post)).image.size ∧
      Word.atOffset (s.run (st :: post)).image.toList s.image.size = w := by
  have ⟨fs, hst, hsole⟩ := s.grows_exec st
  have ⟨gs, hpost⟩ := (s.exec st).grows_run post
  have himage : (s.run (st :: post)).image.toList =
      s.image.toList ++ (Fragment.image fs ++ Fragment.image gs) := by
    rw [← List.append_assoc, ← hst.image_eq, ← hpost.image_eq]
    rfl
  have hrelocs : [r] = Fragment.relocations s.cursor fs := by
    have h := hst.relocations_eq
    rw [hr, Array.toList_push] at h
    exact List.append_cancel_left h
  cases hsole
  case none | fixed => cases hrelocs
  case pending kind w target hw =>
    cases hrelocs
    rw [Fragment.image_cons, Fragment.bytes, Fragment.image_nil, List.append_nil] at himage
    refine ⟨w, hw, rfl, ?mem, ?size, ?word⟩
    case mem =>
      have hmem := hpost.relocations_eq
      rw [hr, Array.toList_push] at hmem
      rw [← Array.mem_toList_iff, show s.run (st :: post) = (s.exec st).run post from rfl, hmem]
      simp
    case size =>
      have hlen := congrArg List.length himage
      simp only [List.length_append, Word.length_toBytes, Array.length_toList] at hlen
      omega
    case word => rw [himage, ← Array.length_toList, Word.atOffset_append]

end Session

namespace Object

-- A jump with the fixed bits of a branch, one of which is where the displacement goes.
def crossed : List Stmt := [.emitJump Op.bne.fixedBits .zero (.label "end"), .label "end"]

theorem ofStmts_crossed :
    ∃ symbols, ofStmts 0 crossed =
        ⟨0, #[0x63, 0x10, 0, 0], symbols, #[⟨0, .jump, "end"⟩], #[]⟩ ∧
      symbols.address? "end" = some 4 := by
  obtain ⟨t, ht⟩ :=
    SymbolTable.add_eq_ok_iff.mpr (SymbolTable.get?_empty (Symbol.mk "end" 4#32 false).name)
  have hg := SymbolTable.get?_of_add_eq_ok ht
  have himage : (Instr.encodeJump Op.bne.fixedBits .zero 0#32).toBytes = [0x63, 0x10, 0, 0] := by
    decide
  refine ⟨t, ?_, by simp [SymbolTable.address?, hg]⟩
  simp [ofStmts, crossed, Session.run, Session.exec, Session.start, Session.label,
    Session.displacement, Session.record, Session.word, Session.bytes, Session.cursor,
    Session.define, ht, himage]

-- The bit is lost without a word.
theorem link_crossed :
    ∃ l, (ofStmts 0 crossed).link { stackSize := 0 } = .ok l ∧ l.clean ∧
      l.image = [0x63, 0, 0x40, 0] := by
  obtain ⟨symbols, ho, hend⟩ := ofStmts_crossed
  have hw : (Instr.encodeJump Op.bne.fixedBits .zero 0).toBytes = [0x63, 0x10, 0, 0] := by decide
  have he : (ofStmts 0 crossed).Emits
      [.pending .jump "end" (Instr.encodeJump Op.bne.fixedBits .zero 0)] := by
    rw [ho]
    refine ⟨?_, rfl⟩
    rw [Fragment.image_cons, Fragment.image_nil, List.append_nil, Fragment.bytes, hw]
  obtain ⟨l, hl⟩ : ∃ l, (ofStmts 0 crossed).link { stackSize := 0 } = .ok l := by
    rw [ho]
    exact exists_link rfl (by simp [pageSize, addressLimit_eq]) rfl
  obtain ⟨himage, _, hclean⟩ := link_eq_ok he hl
  have hv : Relocation.value ⟨0, .jump, "end"⟩ symbols #[⟨0, .jump, "end"⟩] = .ok (4 - 0) :=
    Relocation.value_displacement_eq_ok (.inl rfl) hend (by decide)
  rw [ho] at himage hclean
  simp only [Fragment.linkedImage, Fragment.linked, Fragment.allFaults, Fragment.faults,
    Relocation.patch, hv, Except.map] at himage hclean
  exact ⟨l, hl, hclean.mpr (by simp), himage.trans (by decide)⟩

end Object

end RV32IM
