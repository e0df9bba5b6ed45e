import RV32IM.Proofs.Layout.Displacement
import RV32IM.Proofs.Link.Placeholder
import RV32IM.Proofs.Link.Site
import RV32IM.Proofs.Session.Anchor

-- Linking against assembling with literal operands. A program that links without a fault and whose
-- symbols can be filled in is the same, byte for byte, as the program in which every symbol has
-- been replaced with the number it stands for.

namespace RV32IM

section Literal

variable (o : Object) (site : Word)

-- The target with its label replaced, for an instruction at `site`.
def Target.literal? : Target → Option Target
  | .offset disp => some (.offset disp)
  | .label name => (o.symbols.address? name).map fun address => .offset (address - site)

-- The lower part of the displacement whose upper part is recorded at an anchor.
def Object.lowerPart? (anchor : Word) : Option Word := do
  let hi ← o.relocations.toList.find? fun r => r.kind = .hi && r.site = anchor
  let address ← o.symbols.address? hi.target
  return (splitDisplacement (address - anchor)).2

def Imm.literal? : Imm → Option Imm
  | .value v => some (.value v)
  | .hi symbol =>
    (o.symbols.address? symbol).map fun address => .value (splitDisplacement (address - site)).1
  | .lo distance => (o.lowerPart? (site - distance)).map .value
  | .anchored name => ((o.symbols.address? name).bind o.lowerPart?).map .value

-- The anchor that an operand makes. It stays in the program with literal operands.
def Imm.anchors : Imm → List Stmt
  | .lo distance => [.anchor distance]
  | .value _ | .hi _ | .anchored _ => []

def Stmt.literal? : Stmt → Option (List Stmt)
  | .emitImmediate bits rd rs1 imm => do
    return imm.anchors ++ [.emitImmediate bits rd rs1 (← imm.literal? o site)]
  | .emitStore bits src base imm => do
    return imm.anchors ++ [.emitStore bits src base (← imm.literal? o site)]
  | .emitUpper bits rd imm => do
    return imm.anchors ++ [.emitUpper bits rd (← imm.literal? o site)]
  | .emitBranch bits rs1 rs2 target => do
    return [.emitBranch bits rs1 rs2 (← target.literal? o site)]
  | .emitJump bits rd target => do return [.emitJump bits rd (← target.literal? o site)]
  | .wordOf symbol => do return [.word (← o.symbols.address? symbol)]
  | st => some [st]

-- The statements that a session is about to be given, with the operands of each replaced for where
-- it is emitted.
def Session.literals? : Session → List Stmt → Option (List Stmt)
  | _, [] => some []
  | s, st :: sts => do return (← st.literal? o s.cursor) ++ (← literals? (s.exec st) sts)

end Literal

namespace Session

-- A session on the way to an object that can be linked without a fault.
structure Settled (o : Object) (s : Session) : Prop where
  clean    : s.diagnostics = #[]
  bound    : ∀ {name sym}, s.symbols.get? name = some sym → o.symbols.get? name = some sym
  linked   : ∀ {fs}, s.Emits fs → Fragment.allFaults o.symbols o.relocations s.base fs = []
  distinct : o.relocations.toList.Pairwise fun r q => r.site ≠ q.site

-- A session `t` that has the literal operands of what a session `s` has been given.
structure Mirrors (o : Object) (s t : Session) : Prop where
  base        : t.base = s.base
  symbols     : t.symbols = s.symbols
  nextAnchor  : t.nextAnchor = s.nextAnchor
  diagnostics : t.diagnostics = s.diagnostics
  relocations : t.relocations = #[]
  image       : ∃ fs, s.Emits fs ∧
    t.image.toList = Fragment.linkedImage o.symbols o.relocations s.base fs

variable {o : Object} {s t : Session} {fs gs : List Fragment} {kind : RelocKind} {target : String}
  {w v : Word}

theorem Settled.of_grows (ht : t.Settled o) (h : s.Grows gs t) : s.Settled o where
  clean := h.clean ht.clean
  bound := fun hn => ht.bound (h.get?_symbols hn)
  linked := fun he => by
    have hf := ht.linked (emits_grows he h)
    rw [Fragment.allFaults_append, List.append_eq_nil_iff, h.base_eq] at hf
    exact hf.left
  distinct := ht.distinct

-- What a relocation that has been recorded last puts in place of its target.
theorem Settled.value_eq_ok (h : ((s.record kind target).word w).Settled o) (he : s.Emits fs) :
    ∃ v, Relocation.value ⟨s.cursor, kind, target⟩ o.symbols o.relocations = .ok v := by
  have hf := h.linked (emits_grows he (Grows.refl.pending kind target w))
  rw [Fragment.allFaults_append, List.append_eq_nil_iff] at hf
  have hp : Fragment.faults o.symbols o.relocations s.cursor (.pending kind target w) = [] := by
    rw [cursor_eq_of_emits he]
    exact (List.append_eq_nil_iff.mp hf.right).left
  rw [Fragment.faults, Relocation.patch] at hp
  cases hv : Relocation.value ⟨s.cursor, kind, target⟩ o.symbols o.relocations
  case error d => simp [hv, Except.map] at hp
  case ok v => exact ⟨v, rfl⟩

-- The lower part is what the program with literal operands finds as well.
theorem Settled.lowerPart?_of_value (h : s.Settled o) {site : Word}
    (hv : Relocation.value ⟨site, .lo, target⟩ o.symbols o.relocations = .ok v) :
    ∃ anchor, o.symbols.address? target = some anchor ∧ o.lowerPart? anchor = some v ∧
      fitsSigned v.toInt 12 := by
  have ⟨anchor, hi, address, ha, hhi, hr, hd⟩ := Relocation.value_lo hv
  rw [Relocation.hiAt?_eq_some_iff h.distinct, ← Relocation.find?_hi_eq_some_iff h.distinct] at hhi
  refine ⟨anchor, ha, ?_, hd ▸ fitsSigned_lowerPart _⟩
  rw [Object.lowerPart?, hhi, Option.bind_eq_bind, Option.bind_some, hr, hd]
  rfl

namespace Mirrors

section

variable (h : Mirrors o s t)
include h

theorem size_eq : t.image.size = s.image.size := by
  have ⟨fs, he, hi⟩ := h.image
  rw [← Array.length_toList, hi, Fragment.length_linkedImage, ← he.image, Array.length_toList]

theorem cursor_eq : t.cursor = s.cursor := by
  rw [cursor, cursor, h.base, h.size_eq]

theorem room_eq : t.room = s.room := by
  rw [room, room, h.base, h.size_eq]

theorem report (d : Diagnostic) : Mirrors o (s.report d) (t.report d) :=
  have ⟨fs, he, hi⟩ := h.image
  { h with
    diagnostics := congrArg (·.push d) h.diagnostics
    image := ⟨fs, ⟨he.image, he.relocations⟩, hi⟩ }

theorem define (sym : Symbol) : Mirrors o (s.define sym) (t.define sym) := by
  have ⟨fs, he, hi⟩ := h.image
  unfold Session.define
  rw [h.symbols]
  split
  case h_1 =>
    exact { h with
      symbols := rfl
      image := ⟨fs, ⟨he.image, he.relocations⟩, hi⟩ }
  case h_2 => exact h.report _

theorem anchor (distance : Word) : Mirrors o (s.anchor distance).2 (t.anchor distance).2 := by
  have ⟨fs, he, hi⟩ := h.image
  simp only [Session.anchor, h.symbols, h.nextAnchor, h.cursor_eq]
  apply Mirrors.define
  exact { h with
    nextAnchor := rfl
    image := ⟨fs, ⟨he.image, he.relocations⟩, hi⟩ }

theorem bytes (bs : List Byte) : Mirrors o (s.bytes bs) (t.bytes bs) :=
  have ⟨_, he, hi⟩ := h.image
  { h with
    image := ⟨_, emits_grows he (Grows.refl.bytes bs), by
      rw [Fragment.linkedImage_append]
      simp [Session.bytes, hi, Fragment.linkedImage, Fragment.linked]⟩ }

theorem word (w : Word) : Mirrors o (s.word w) (t.word w) :=
  h.bytes _

-- A word with a symbol for its operand is linked to the word with the number for its operand.
theorem pending (hv : Relocation.value ⟨s.cursor, kind, target⟩ o.symbols o.relocations = .ok v) :
    Mirrors o ((s.record kind target).word w) (t.word (Relocation.fill w v kind)) :=
  have ⟨_, he, hi⟩ := h.image
  { h with
    image := ⟨_, emits_grows he (Grows.refl.pending kind target w), by
      rw [Fragment.linkedImage_append]
      rw [cursor_eq_of_emits he] at hv
      simp [Session.word, Session.bytes, record, hi, Fragment.linkedImage, Fragment.linked,
        Relocation.patch, hv, Except.map]⟩ }

theorem value_eq_ok (hs : ((s.record kind target).word w).Settled o) :
    ∃ v, Relocation.value ⟨s.cursor, kind, target⟩ o.symbols o.relocations = .ok v :=
  have ⟨_, he, _⟩ := h.image
  hs.value_eq_ok he

end

variable {f : Word → Word}

theorem displacement (h : Mirrors o s t) (hk : kind = .jump ∨ kind = .branch)
    {target : Target} (hf : target.Symbolic → ∀ v, Relocation.fill (f 0) v kind = f v)
    (hs : ((s.displacement kind target).2.word (f (s.displacement kind target).1)).Settled o) :
    ∃ target', target.literal? o s.cursor = some target' ∧
      Mirrors o ((s.displacement kind target).2.word (f (s.displacement kind target).1))
        ((t.displacement kind target').2.word (f (t.displacement kind target').1)) := by
  cases target
  case offset disp =>
    refine ⟨_, rfl, ?_⟩
    simp only [Session.displacement]
    split
    case isTrue => exact h.word _
    case isFalse => exact h.cursor_eq ▸ (h.report _).word _
  case label name =>
    obtain ⟨v, hv⟩ := h.value_eq_ok hs
    obtain ⟨ha, hr⟩ := Relocation.value_displacement hk hv
    obtain ⟨address, ha, hd⟩ := Option.map_eq_some_iff.mp ha
    refine ⟨.offset v, by rw [Target.literal?, ha, ← hd, Option.map_some], ?_⟩
    simp only [Session.displacement, hr, if_true]
    exact hf trivial v ▸ h.pending hv

theorem lowImm (h : Mirrors o s t) {imm : Imm}
    (hf : imm.Symbolic → ∀ v, Relocation.fill (f 0) v .lo = f v)
    (hs : ((s.lowImm imm).2.word (f (s.lowImm imm).1)).Settled o) :
    ∃ imm', imm.literal? o s.cursor = some imm' ∧
      Mirrors o ((s.lowImm imm).2.word (f (s.lowImm imm).1))
        (((t.run imm.anchors).lowImm imm').2.word (f ((t.run imm.anchors).lowImm imm').1)) := by
  cases imm
  case value v =>
    refine ⟨_, rfl, ?_⟩
    simp only [Session.lowImm]
    split
    case isTrue => exact h.word _
    case isFalse => exact h.cursor_eq ▸ (h.report _).word _
  case hi symbol =>
    have hc := congrArg Array.size hs.clean
    simp [Session.lowImm, Session.report, Session.word, Session.bytes] at hc
  case lo distance =>
    have ha := h.anchor distance
    have hs : (((s.anchor distance).2.record .lo (s.anchor distance).1).word (f 0)).Settled o := hs
    obtain ⟨v, hv⟩ := ha.value_eq_ok hs
    obtain ⟨anchor, hname, hlower, hfit⟩ := hs.lowerPart?_of_value hv
    have hb := hs.bound (s.get?_anchor distance)
    rw [SymbolTable.address?, hb] at hname
    cases hname
    refine ⟨.value v, by rw [Imm.literal?, hlower, Option.map_some], ?_⟩
    simp only [Session.lowImm, hfit, if_true]
    exact hf trivial v ▸ ha.pending hv
  case anchored name =>
    obtain ⟨v, hv⟩ := h.value_eq_ok hs
    obtain ⟨anchor, hname, hlower, hfit⟩ := hs.lowerPart?_of_value hv
    refine ⟨.value v, by rw [Imm.literal?, hname, Option.bind_some, hlower, Option.map_some], ?_⟩
    simp only [Session.lowImm, hfit, if_true]
    exact hf trivial v ▸ h.pending hv

theorem upperImm (h : Mirrors o s t) {imm : Imm}
    (hf : imm.Symbolic → ∀ v, Relocation.fill (f 0) v .hi = f v)
    (hs : ((s.upperImm imm).2.word (f (s.upperImm imm).1)).Settled o) :
    ∃ imm', imm.literal? o s.cursor = some imm' ∧
      Mirrors o ((s.upperImm imm).2.word (f (s.upperImm imm).1))
        (((t.run imm.anchors).upperImm imm').2.word
          (f ((t.run imm.anchors).upperImm imm').1)) := by
  cases imm
  case value v =>
    refine ⟨_, rfl, ?_⟩
    simp only [Session.upperImm]
    split
    case isTrue => exact h.word _
    case isFalse => exact h.cursor_eq ▸ (h.report _).word _
  case hi symbol =>
    obtain ⟨v, hv⟩ := h.value_eq_ok hs
    obtain ⟨address, ha, hd⟩ := Option.map_eq_some_iff.mp (Relocation.value_hi hv)
    have hlt : v.toNat < 2 ^ 20 := hd ▸ toNat_upperPart_lt _
    have hv' : v.toInt = v.toNat := BitVec.toInt_eq_toNat_of_lt (by omega)
    have hfit : (-(valueCount 19 : Int) ≤ v.toInt && v.toInt < valueCount 20) = true := by
      rw [Bool.and_eq_true, decide_eq_true_eq, decide_eq_true_eq]
      simp only [valueCount]
      omega
    refine ⟨.value v, by rw [Imm.literal?, ha, Option.map_some, hd], ?_⟩
    simp only [Session.upperImm, hfit, if_true]
    exact hf trivial v ▸ h.pending hv
  case lo distance =>
    have hc := congrArg Array.size hs.clean
    simp [Session.upperImm, Session.report, Session.word, Session.bytes] at hc
  case anchored name =>
    have hc := congrArg Array.size hs.clean
    simp [Session.upperImm, Session.report, Session.word, Session.bytes] at hc

theorem zeros (h : Mirrors o s t) (len : Nat) : Mirrors o (s.zeros len) (t.zeros len) := by
  unfold Session.zeros
  rw [h.room_eq, h.cursor_eq]
  split
  case isTrue => exact h.report _
  case isFalse => exact h.bytes _

theorem align (h : Mirrors o s t) (n : Nat) : Mirrors o (s.align n) (t.align n) := by
  unfold Session.align
  rw [h.cursor_eq]
  split
  case isTrue => exact h.zeros _
  case isFalse => exact h

theorem label (h : Mirrors o s t) (name : String) : Mirrors o (s.label name) (t.label name) := by
  unfold Session.label
  rw [h.cursor_eq]
  split
  case isTrue => exact h.report _
  case isFalse => exact h.define _

theorem shiftAmount (h : Mirrors o s t) (amount : Word) :
    Mirrors o (s.shiftAmount amount) (t.shiftAmount amount) := by
  unfold Session.shiftAmount
  rw [h.cursor_eq]
  split
  case isTrue => exact h
  case isFalse => exact h.report _

theorem exec (h : Mirrors o s t) {st : Stmt} (hfill : st.Fillable) (hs : (s.exec st).Settled o) :
    ∃ sts, st.literal? o s.cursor = some sts ∧ Mirrors o (s.exec st) (t.run sts) := by
  cases st
  case emitRegister | word => exact ⟨_, rfl, h.word _⟩
  case bytes bs => exact ⟨_, rfl, h.bytes bs⟩
  case zeros len => exact ⟨_, rfl, h.zeros len⟩
  case align n => exact ⟨_, rfl, h.align n⟩
  case label name => exact ⟨_, rfl, h.label name⟩
  case define sym => exact ⟨_, rfl, h.define sym⟩
  case anchor distance => exact ⟨_, rfl, h.anchor distance⟩
  case report d => exact ⟨_, rfl, h.report d⟩
  case emitShift amount => exact ⟨_, rfl, (h.shiftAmount amount).word _⟩
  case wordOf symbol =>
    obtain ⟨v, hv⟩ := h.value_eq_ok hs
    exact ⟨[.word v], by rw [Stmt.literal?, Relocation.value_word hv]; rfl, h.pending hv⟩
  case emitImmediate bits rd rs1 imm =>
    obtain ⟨imm', hi, hm⟩ :=
      h.lowImm (fun hsym v => Relocation.fill_encodeImmediate (hfill hsym) v) hs
    refine ⟨imm.anchors ++ [.emitImmediate bits rd rs1 imm'], by rw [Stmt.literal?, hi]; rfl, ?_⟩
    rw [run, List.foldl_append]
    exact hm
  case emitStore bits src base imm =>
    obtain ⟨imm', hi, hm⟩ :=
      h.lowImm (fun hsym v => Relocation.fill_encodeStore (hfill hsym) v) hs
    refine ⟨imm.anchors ++ [.emitStore bits src base imm'], by rw [Stmt.literal?, hi]; rfl, ?_⟩
    rw [run, List.foldl_append]
    exact hm
  case emitUpper bits rd imm =>
    obtain ⟨imm', hi, hm⟩ :=
      h.upperImm (fun hsym v => Relocation.fill_encodeUpper (hfill hsym) v) hs
    refine ⟨imm.anchors ++ [.emitUpper bits rd imm'], by rw [Stmt.literal?, hi]; rfl, ?_⟩
    rw [run, List.foldl_append]
    exact hm
  case emitBranch bits rs1 rs2 target =>
    obtain ⟨target', hi, hm⟩ :=
      h.displacement (.inr rfl) (fun hsym v => Relocation.fill_encodeBranch (hfill hsym) v) hs
    exact ⟨[.emitBranch bits rs1 rs2 target'], by rw [Stmt.literal?, hi]; rfl, hm⟩
  case emitJump bits rd target =>
    obtain ⟨target', hi, hm⟩ :=
      h.displacement (.inl rfl) (fun hsym v => Relocation.fill_encodeJump (hfill hsym) v) hs
    exact ⟨[.emitJump bits rd target'], by rw [Stmt.literal?, hi]; rfl, hm⟩

theorem run (h : Mirrors o s t) {sts : List Stmt} (hfill : ∀ st ∈ sts, st.Fillable)
    (hs : (s.run sts).Settled o) :
    ∃ lits, s.literals? o sts = some lits ∧ Mirrors o (s.run sts) (t.run lits) := by
  induction sts generalizing s t
  case nil => exact ⟨[], rfl, h⟩
  case cons st sts ih =>
    have ⟨_, hg⟩ := grows_run (s.exec st) sts
    have ⟨hst, hsts⟩ := List.forall_mem_cons.mp hfill
    have ⟨ls, hl, hm⟩ := h.exec hst (hs.of_grows hg)
    have ⟨ls', hl', hm'⟩ := ih hm hsts hs
    refine ⟨ls ++ ls', by rw [literals?, hl, Option.bind_eq_bind, Option.bind_some, hl']; rfl, ?_⟩
    rw [Session.run, Session.run, List.foldl_append]
    exact hm'

end Mirrors

end Session

namespace Object

open Session

theorem mirrors_start (o : Object) (base : Word) : Mirrors o (start base) (start base) where
  base        := rfl
  symbols     := rfl
  nextAnchor  := rfl
  diagnostics := rfl
  relocations := rfl
  image       := ⟨[], emits_start base, rfl⟩

variable {base : Word} {stmts : List Stmt} {cfg : LinkConfig} {l : Linked}

theorem settled_of_link (h : (ofStmts base stmts).link cfg = .ok l) (hc : l.clean) :
    ((start base).run stmts).Settled (ofStmts base stmts) := by
  have ⟨fs, hg⟩ := grows_run (start base) stmts
  have he : (ofStmts base stmts).Emits fs := emits_grows (emits_start base) hg
  have ⟨_, _, hclean⟩ := link_eq_ok he h
  constructor
  case clean => exact (hclean.mp hc).left.left
  case bound => exact id
  case linked =>
    intro fs he
    have ⟨_, _, hclean⟩ := link_eq_ok he h
    exact (hclean.mp hc).right
  case distinct => exact pairwise_relocations he h

-- A program that links without a fault is the program with literal operands, byte for byte, and
-- that one needs no linking. Where a symbol is named, the linker must fill in what the statement
-- would have filled in, and nothing must be there yet.
theorem link_eq_literals (h : (ofStmts base stmts).link cfg = .ok l) (hc : l.clean)
    (hfill : ∀ st ∈ stmts, st.Fillable) :
    ∃ lits, (start base).literals? (ofStmts base stmts) stmts = some lits ∧
      (ofStmts base lits).diagnostics = #[] ∧ (ofStmts base lits).relocations = #[] ∧
      (ofStmts base lits).image.toList = l.image := by
  have hs := settled_of_link h hc
  have ⟨lits, hl, hm⟩ := (mirrors_start (ofStmts base stmts) base).run hfill hs
  have ⟨fs, he, hi⟩ := hm.image
  have ⟨himage, _⟩ := link_eq_ok he h
  exact ⟨lits, hl, hm.diagnostics.trans hs.clean, hm.relocations, hi.trans himage.symm⟩

-- Code that jumps over the loading of an address, and a word that holds it.
def sample : List Stmt :=
  .j (.label "end") :: Stmt.la .a0 "end" ++ [.label "end", .wordOf "end"]

def sampleFragments : List Fragment := [
  .pending .jump "end" (Instr.encodeJump Op.jal.fixedBits .zero 0),
  .pending .hi "end" (Instr.encodeUpper Op.auipc.fixedBits .a0 0),
  .pending .lo "@pcrel_hi0" (Instr.encodeImmediate Op.addi.fixedBits .a0 .a0 0),
  .pending .word "end" 0]

theorem ofStmts_sample :
    ∃ symbols,
      ofStmts 0 sample = ⟨0, (Fragment.image sampleFragments).toArray, symbols,
        (Fragment.relocations 0 sampleFragments).toArray, #[]⟩ ∧
      symbols.address? "end" = some 12 ∧ symbols.address? "@pcrel_hi0" = some 4 := by
  obtain ⟨t₁, h₁⟩ :=
    SymbolTable.add_eq_ok_iff.mpr (SymbolTable.get?_empty (Symbol.mk "@pcrel_hi0" 4#32 true).name)
  have g₁ := SymbolTable.get?_of_add_eq_ok h₁
  have hfree : t₁.get? (Symbol.mk "end" 12#32 false).name = none := by simp [g₁]
  obtain ⟨t₂, h₂⟩ := SymbolTable.add_eq_ok_iff.mpr hfree
  have g₂ := SymbolTable.get?_of_add_eq_ok h₂
  have hname : anchorName 0 = "@pcrel_hi0" := by decide
  have hfresh n : freshFrom .empty SymbolTable.empty.size n = n := rfl
  refine ⟨t₂, ?_, by simp [SymbolTable.address?, g₂], by simp [SymbolTable.address?, g₂, g₁]⟩
  simp [ofStmts, sample, Stmt.j, Stmt.la, Stmt.jump, Stmt.upper, Stmt.immediate, run, exec, start,
    Session.label, displacement, upperImm, lowImm, record, Session.word, Session.bytes, cursor,
    anchor, hfresh, hname, define, h₁, h₂, sampleFragments, Fragment.bytes, Fragment.relocations,
    Fragment.after]

theorem link_sample : ∃ l, (ofStmts 0 sample).link { stackSize := 0 } = .ok l ∧ l.clean := by
  obtain ⟨symbols, ho, hend, hanchor⟩ := ofStmts_sample
  have he : (ofStmts 0 sample).Emits sampleFragments := by
    rw [ho]
    exact ⟨rfl, rfl⟩
  obtain ⟨l, hl⟩ : ∃ l, (ofStmts 0 sample).link { stackSize := 0 } = .ok l := by
    rw [ho]
    exact exists_link rfl (by simp [sampleFragments, Fragment.bytes, pageSize, addressLimit_eq]) rfl
  obtain ⟨_, _, hclean⟩ := link_eq_ok he hl
  refine ⟨l, hl, hclean.mpr ?_⟩
  rw [ho]
  refine ⟨⟨rfl, rfl⟩, ?_⟩
  have hhi : Relocation.hiAt? (Fragment.relocations 0 sampleFragments).toArray 4 =
      some ⟨4, .hi, "end"⟩ := by decide
  simp only [sampleFragments, Fragment.allFaults, Fragment.faults, Relocation.patch,
    Relocation.value, Relocation.resolve, hend, hanchor, bind, Except.bind] at hhi ⊢
  simp only [hhi, hend]
  rfl

theorem fillable_sample : ∀ st ∈ sample, st.Fillable := by
  have hm : ∀ st ∈ sample, st.Matched := by
    simp [sample, Stmt.la, Stmt.j, Stmt.jump, Stmt.upper, Stmt.immediate, Stmt.Matched]
    exact ⟨⟨.jal, rfl, rfl⟩, ⟨.auipc, rfl, rfl⟩, ⟨.addi, .inl rfl, rfl⟩⟩
  exact fun st hst => (hm st hst).fillable

theorem link_eq_literals_sample :
    ∃ l, (ofStmts 0 sample).link { stackSize := 0 } = .ok l ∧ l.clean ∧
      (∀ st ∈ sample, st.Fillable) ∧
      ∃ lits, (start 0).literals? (ofStmts 0 sample) sample = some lits ∧
        (ofStmts 0 lits).diagnostics = #[] ∧ (ofStmts 0 lits).relocations = #[] ∧
        (ofStmts 0 lits).image.toList = l.image := by
  have ⟨l, hl, hc⟩ := link_sample
  exact ⟨l, hl, hc, fillable_sample, link_eq_literals hl hc fillable_sample⟩

-- The jump that is crossed with a branch, over the four bytes that its label is away.
def crossedLiteral : List Stmt := [.emitJump Op.bne.fixedBits .zero (.offset 4), .label "end"]

-- A literal joins the bit that is where it goes, while linking clears the bit first.
theorem link_ne_literals_crossed :
    ∃ l, (ofStmts 0 crossed).link { stackSize := 0 } = .ok l ∧ l.clean ∧
      ∃ lits, (start 0).literals? (ofStmts 0 crossed) crossed = some lits ∧
        (ofStmts 0 lits).image.toList ≠ l.image := by
  obtain ⟨l, hl, hc, himage⟩ := link_crossed
  obtain ⟨symbols, ho, hend⟩ := ofStmts_crossed
  refine ⟨l, hl, hc, crossedLiteral, ?_, ?_⟩
  case refine_1 =>
    rw [ho]
    simp [crossed, crossedLiteral, literals?, Stmt.literal?, Target.literal?, hend, cursor, start]
  case refine_2 =>
    have hlabel := (((start 0).exec (.emitJump Op.bne.fixedBits .zero (.offset 4))).grows_label
      "end").image_eq
    have hlit : (ofStmts 0 crossedLiteral).image.toList = [0x63, 0x10, 0x40, 0] :=
      hlabel.trans (by decide)
    rw [himage, hlit]
    decide

end Object

end RV32IM
