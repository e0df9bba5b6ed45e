import Mathlib
import RV32IM.Proofs.Session.Growth

-- Sessions at two bases. What a session emits does not depend on where it begins, as long as
-- nothing has to be left out for want of room and whatever is aligned is aligned in the same way at
-- both bases. The addresses that it binds and records move with the base.

namespace RV32IM

variable {δ : Word}

def Symbol.shift (δ : Word) (sym : Symbol) : Symbol :=
  { sym with address := sym.address + δ }

def Relocation.shift (δ : Word) (r : Relocation) : Relocation :=
  { r with site := r.site + δ }

-- Whether a table has the symbols of another one, in their order, at shifted addresses.
def SymbolTable.Shifted (δ : Word) (t t' : SymbolTable) : Prop :=
  t'.symbols = t.symbols.map (Symbol.shift δ)

namespace SymbolTable.Shifted

variable {t t' : SymbolTable} (h : t.Shifted δ t')

include h

theorem get?_eq (name : String) : t'.get? name = (t.get? name).map (Symbol.shift δ) := by
  ext sym
  rw [get?_eq_some_iff, h, Array.mem_map, Option.map_eq_some_iff]
  constructor
  case mp =>
    rintro ⟨⟨old, ho, rfl⟩, hn⟩
    exact ⟨old, get?_eq_some_iff.mpr ⟨ho, hn⟩, rfl⟩
  case mpr =>
    rintro ⟨old, ho, rfl⟩
    have ⟨hm, hn⟩ := get?_eq_some_iff.mp ho
    exact ⟨⟨old, hm, rfl⟩, hn⟩

theorem address?_eq (name : String) : t'.address? name = (t.address? name).map (· + δ) := by
  rw [address?, address?, h.get?_eq, Option.map_map, Option.map_map]
  rfl

theorem contains_eq (name : String) : t'.contains name = t.contains name := by
  rw [Bool.eq_iff_iff, contains_iff, contains_iff, h.get?_eq, Option.isSome_map]

theorem size_eq : t'.size = t.size := by
  rw [size, size, h, Array.size_map]

-- A name is bound in both or in neither.
theorem add (sym : Symbol) :
    (∃ u u', t.add sym = .ok u ∧ t'.add (sym.shift δ) = .ok u' ∧ u.Shifted δ u') ∨
      ∃ old old', t.add sym = .error old ∧ t'.add (sym.shift δ) = .error old' := by
  have hget : t'.get? (sym.shift δ).name = (t.get? sym.name).map (Symbol.shift δ) := h.get?_eq _
  cases hn : t.get? sym.name
  case none =>
    rw [hn] at hget
    have ⟨u, hu⟩ := add_eq_ok_iff.mpr hn
    have ⟨u', hu'⟩ := add_eq_ok_iff.mpr hget
    refine .inl ⟨u, u', hu, hu', ?_⟩
    rw [Shifted, symbols_of_add_eq_ok hu, symbols_of_add_eq_ok hu', h, Array.map_push]
  case some old =>
    rw [hn] at hget
    exact .inr ⟨old, old.shift δ, add_eq_error hn, add_eq_error hget⟩

end SymbolTable.Shifted

-- Whether an object is another one moved to another base.
structure Object.Shifted (δ : Word) (o o' : Object) : Prop where
  base        : o'.base = o.base + δ
  image       : o'.image = o.image
  symbols     : o.symbols.Shifted δ o'.symbols
  relocations : o'.relocations = o.relocations.map (Relocation.shift δ)

namespace Session

structure Shifted (δ : Word) (s s' : Session) : Prop
    extends Object.Shifted δ s.toObject s'.toObject where
  nextAnchor : s'.nextAnchor = s.nextAnchor

theorem shifted_start (base δ : Word) : (start base).Shifted δ (start (base + δ)) where
  base        := rfl
  image       := rfl
  symbols     := by simp [SymbolTable.Shifted, start, SymbolTable.empty]
  relocations := by simp [start]
  nextAnchor  := rfl

namespace Shifted

variable {s s' : Session} (h : s.Shifted δ s')

include h

theorem cursor_eq : s'.cursor = s.cursor + δ := by
  rw [cursor, cursor, h.base, h.image]
  ac_rfl

theorem report (d d' : Diagnostic) : (s.report d).Shifted δ (s'.report d') :=
  ⟨⟨h.base, h.image, h.symbols, h.relocations⟩, h.nextAnchor⟩

theorem skip (n : Nat) : Shifted δ { s with nextAnchor := n } { s' with nextAnchor := n } :=
  ⟨⟨h.base, h.image, h.symbols, h.relocations⟩, rfl⟩

theorem bytes (bs : List Byte) : (s.bytes bs).Shifted δ (s'.bytes bs) := by
  refine ⟨⟨h.base, ?_, h.symbols, h.relocations⟩, h.nextAnchor⟩
  simp only [Session.bytes, h.image]

theorem word (w : Word) : (s.word w).Shifted δ (s'.word w) :=
  h.bytes _

theorem record (kind : RelocKind) (target : String) :
    (s.record kind target).Shifted δ (s'.record kind target) := by
  refine ⟨⟨h.base, h.image, h.symbols, ?_⟩, h.nextAnchor⟩
  simp only [Session.record, h.relocations, h.cursor_eq, Array.map_push]
  rfl

theorem define (sym : Symbol) : (s.define sym).Shifted δ (s'.define (sym.shift δ)) := by
  unfold Session.define
  obtain ⟨u, u', hu, hu', hs⟩ | ⟨old, old', ho, ho'⟩ := h.symbols.add sym
  case inl =>
    rw [hu, hu']
    exact ⟨⟨h.base, h.image, hs, h.relocations⟩, h.nextAnchor⟩
  case inr =>
    rw [ho, ho']
    exact h.report _ _

theorem label (name : String) : (s.label name).Shifted δ (s'.label name) := by
  unfold Session.label
  split
  case isTrue => exact h.report _ _
  case isFalse =>
    rw [h.cursor_eq]
    exact h.define ⟨name, s.cursor, false⟩

theorem freshFrom_eq (tries n : Nat) :
    freshFrom s'.symbols tries n = freshFrom s.symbols tries n := by
  induction tries generalizing n
  case zero => rfl
  case succ tries ih => rw [freshFrom, freshFrom, h.symbols.contains_eq, ih]

theorem anchor (distance : Word) :
    (s'.anchor distance).1 = (s.anchor distance).1 ∧
      (s.anchor distance).2.Shifted δ (s'.anchor distance).2 := by
  have hfresh : freshFrom s'.symbols s'.symbols.size s'.nextAnchor =
      freshFrom s.symbols s.symbols.size s.nextAnchor := by
    rw [h.symbols.size_eq, h.nextAnchor, h.freshFrom_eq]
  have haddress : s'.cursor - distance = s.cursor - distance + δ := by
    rw [h.cursor_eq]
    ring
  simp only [Session.anchor, hfresh, haddress, true_and]
  exact (h.skip _).define ⟨_, s.cursor - distance, true⟩

-- An operand has the same value for now, and what is recorded or reported of it moves.
theorem lowImm (imm : Imm) :
    (s'.lowImm imm).1 = (s.lowImm imm).1 ∧ (s.lowImm imm).2.Shifted δ (s'.lowImm imm).2 := by
  cases imm
  case value v =>
    simp only [Session.lowImm, true_and]
    split
    case isTrue  => exact h
    case isFalse => exact h.report _ _
  case hi => exact ⟨rfl, h.report _ _⟩
  case lo distance =>
    obtain ⟨hname, ha⟩ := h.anchor distance
    exact ⟨rfl, by simpa only [Session.lowImm, hname] using ha.record .lo _⟩
  case anchored => exact ⟨rfl, h.record _ _⟩

theorem upperImm (imm : Imm) :
    (s'.upperImm imm).1 = (s.upperImm imm).1 ∧
      (s.upperImm imm).2.Shifted δ (s'.upperImm imm).2 := by
  cases imm
  case value v =>
    simp only [Session.upperImm, true_and]
    split
    case isTrue  => exact h
    case isFalse => exact h.report _ _
  case hi => exact ⟨rfl, h.record _ _⟩
  case lo distance => exact ⟨rfl, (h.anchor distance).right.report _ _⟩
  case anchored => exact ⟨rfl, h.report _ _⟩

theorem displacement (kind : RelocKind) (target : Target) :
    (s'.displacement kind target).1 = (s.displacement kind target).1 ∧
      (s.displacement kind target).2.Shifted δ (s'.displacement kind target).2 := by
  cases target
  case offset disp =>
    simp only [Session.displacement, true_and]
    split
    case isTrue  => exact h
    case isFalse => exact h.report _ _
  case label => exact ⟨rfl, h.record _ _⟩

theorem shiftAmount (amount : Word) : (s.shiftAmount amount).Shifted δ (s'.shiftAmount amount) := by
  unfold Session.shiftAmount
  split
  case isTrue  => exact h
  case isFalse => exact h.report _ _

-- Zeros are left out at both bases or at none, unless one of the two is reported.
theorem zeros {len : Nat} (hs : (s.zeros len).diagnostics = #[])
    (hs' : (s'.zeros len).diagnostics = #[]) : (s.zeros len).Shifted δ (s'.zeros len) := by
  have room {s : Session} (hs : (s.zeros len).diagnostics = #[]) :
      s.zeros len = s.bytes (List.replicate len 0) := by
    refine if_neg fun hlen => ?_
    rw [Session.zeros, if_pos hlen] at hs
    simp [Session.report] at hs
  rw [room hs, room hs']
  exact h.bytes _

-- Both cursors are as far past a multiple of `n`.
theorem align {n : Nat} (hδ : pageSize ∣ δ.toNat) (hn : n ∣ pageSize)
    (hs : (s.align n).diagnostics = #[]) (hs' : (s'.align n).diagnostics = #[]) :
    (s.align n).Shifted δ (s'.align n) := by
  have hmod : s'.cursor.toNat % n = s.cursor.toNat % n := by
    have hlimit : n ∣ 2 ^ 32 := hn.trans (by decide)
    rw [h.cursor_eq, BitVec.toNat_add, Nat.mod_mod_of_dvd _ hlimit, Nat.add_mod,
      Nat.mod_eq_zero_of_dvd (hn.trans hδ), Nat.add_zero, Nat.mod_mod]
  by_cases hlt : n > 1
  case pos =>
    simp only [Session.align, hmod, if_pos hlt] at hs hs' ⊢
    exact h.zeros hs hs'
  case neg =>
    simp only [Session.align, if_neg hlt]
    exact h

end Shifted

end Session

-- Whether a statement means the same at every page. One that binds a name to an address of its own
-- does not, nor does a complaint, which may name one.
def Stmt.Movable : Stmt → Prop
  | align n => n ∣ pageSize
  | define _ | report _ => False
  | _ => True

namespace Session.Shifted

variable {s s' : Session}

theorem exec (h : s.Shifted δ s') (hδ : pageSize ∣ δ.toNat) {st : Stmt} (hst : st.Movable)
    (hs : (s.exec st).diagnostics = #[]) (hs' : (s'.exec st).diagnostics = #[]) :
    (s.exec st).Shifted δ (s'.exec st) := by
  cases st
  case emitRegister | word => exact h.word _
  case emitImmediate imm | emitStore imm =>
    obtain ⟨hv, hl⟩ := h.lowImm imm
    simp only [Session.exec, hv]
    exact hl.word _
  case emitUpper imm =>
    obtain ⟨hv, hl⟩ := h.upperImm imm
    simp only [Session.exec, hv]
    exact hl.word _
  case emitBranch target =>
    obtain ⟨hv, hl⟩ := h.displacement .branch target
    simp only [Session.exec, hv]
    exact hl.word _
  case emitJump target =>
    obtain ⟨hv, hl⟩ := h.displacement .jump target
    simp only [Session.exec, hv]
    exact hl.word _
  case emitShift amount => exact (h.shiftAmount amount).word _
  case wordOf symbol => exact (h.record .word symbol).word 0
  case bytes bs => exact h.bytes bs
  case zeros len => exact h.zeros hs hs'
  case align n => exact h.align hδ hst hs hs'
  case label name => exact h.label name
  case define | report => exact hst.elim
  case anchor distance => exact (h.anchor distance).right

theorem run (h : s.Shifted δ s') (hδ : pageSize ∣ δ.toNat) {stmts : List Stmt}
    (hstmts : ∀ st ∈ stmts, st.Movable) (hs : (s.run stmts).diagnostics = #[])
    (hs' : (s'.run stmts).diagnostics = #[]) : (s.run stmts).Shifted δ (s'.run stmts) := by
  induction stmts generalizing s s'
  case nil => exact h
  case cons st stmts ih =>
    have ⟨hst, hrest⟩ := List.forall_mem_cons.mp hstmts
    have ⟨_, hg⟩ := grows_run (s.exec st) stmts
    have ⟨_, hg'⟩ := grows_run (s'.exec st) stmts
    exact ih (h.exec hδ hst (hg.clean hs) (hg'.clean hs')) hrest hs hs'

end Session.Shifted

end RV32IM
