import RV32IM.Session.Stmt

-- Growth of sessions. Whatever a statement does to a session comes down to a few changes, each of
-- which only adds to it. What a session has emitted is a list of fragments, and its relocations are
-- those of the fragments that wait for a symbol. A statement emits at most one fragment, and one
-- that waits is what the statement makes of its operands with zero for the number.

namespace RV32IM

-- Bytes that are final, or a word that waits for a symbol.
inductive Fragment
  | fixed (bs : List Byte)
  | pending (kind : RelocKind) (target : String) (w : Word)

namespace Fragment

def bytes : Fragment → List Byte
  | fixed bs => bs
  | pending _ _ w => w.toBytes

def image (fs : List Fragment) : List Byte :=
  fs.flatMap bytes

-- At most one fragment, of a word with the property if it waits.
inductive Sole (P : RelocKind → Word → Prop) : List Fragment → Prop
  | none : Sole P []
  | fixed (bs : List Byte) : Sole P [fixed bs]
  | pending {kind : RelocKind} {w : Word} (target : String) :
    P kind w → Sole P [pending kind target w]

-- The address that follows a fragment.
def after (site : Word) (f : Fragment) : Word :=
  site + BitVec.ofNat 32 f.bytes.length

-- The relocations of fragments of which the first is at `site`.
def relocations : Word → List Fragment → List Relocation
  | _, [] => []
  | site, .fixed bs :: fs => relocations (after site (.fixed bs)) fs
  | site, .pending kind target w :: fs =>
    ⟨site, kind, target⟩ :: relocations (after site (.pending kind target w)) fs

@[simp]
theorem image_nil : image [] = [] := rfl

@[simp]
theorem image_append (fs gs : List Fragment) : image (fs ++ gs) = image fs ++ image gs :=
  List.flatMap_append

@[simp]
theorem image_cons (f : Fragment) (fs : List Fragment) : image (f :: fs) = f.bytes ++ image fs :=
  List.flatMap_cons

theorem relocations_append (site : Word) (fs gs : List Fragment) :
    relocations site (fs ++ gs) =
      relocations site fs ++ relocations (site + BitVec.ofNat 32 (image fs).length) gs := by
  induction fs generalizing site
  case nil => simp [relocations]
  case cons f fs ih =>
    have h : after site f + BitVec.ofNat 32 (image fs).length =
        site + BitVec.ofNat 32 (image (f :: fs)).length := by
      rw [after, image_cons, List.length_append, BitVec.ofNat_add, BitVec.add_assoc]
    cases f <;> simp [relocations, ih, h]

end Fragment

-- Whether an operand names a symbol.
def Imm.Symbolic : Imm → Prop
  | value _ => False
  | hi _ | lo _ | anchored _ => True

def Target.Symbolic : Target → Prop
  | offset _ => False
  | label _ => True

-- The words that statements leave where symbols are to be filled in.
inductive Stmt.Leaves : Stmt → RelocKind → Word → Prop
  | immediate {bits rd rs1 imm} :
    imm.Symbolic → Leaves (.emitImmediate bits rd rs1 imm) .lo (Instr.encodeImmediate bits rd rs1 0)
  | store {bits src base imm} :
    imm.Symbolic → Leaves (.emitStore bits src base imm) .lo (Instr.encodeStore bits base src 0)
  | branch {bits rs1 rs2 target} :
    target.Symbolic →
      Leaves (.emitBranch bits rs1 rs2 target) .branch (Instr.encodeBranch bits rs1 rs2 0)
  | upper {bits rd imm} :
    imm.Symbolic → Leaves (.emitUpper bits rd imm) .hi (Instr.encodeUpper bits rd 0)
  | jump {bits rd target} :
    target.Symbolic → Leaves (.emitJump bits rd target) .jump (Instr.encodeJump bits rd 0)
  | wordOf {symbol} : Leaves (.wordOf symbol) .word 0

-- The fragments that an object is made of.
structure Object.Emits (o : Object) (fs : List Fragment) : Prop where
  image       : o.image.toList = Fragment.image fs
  relocations : o.relocations.toList = Fragment.relocations o.base fs

namespace Session

-- The changes that a session can undergo, with the fragments that they emit.
inductive Grows (s : Session) : List Fragment → Session → Prop
  | refl : Grows s [] s
  | report {fs t} (d : Diagnostic) : Grows s fs t → Grows s fs (t.report d)
  | bind {fs t sym symbols} :
    Grows s fs t → t.symbols.add sym = .ok symbols → Grows s fs { t with symbols }
  | skip {fs t} (nextAnchor : Nat) : Grows s fs t → Grows s fs { t with nextAnchor }
  | bytes {fs t} (bs : List Byte) : Grows s fs t → Grows s (fs ++ [.fixed bs]) (t.bytes bs)
  | pending {fs t} (kind : RelocKind) (target : String) (w : Word) :
    Grows s fs t → Grows s (fs ++ [.pending kind target w]) ((t.record kind target).word w)

variable {s t u : Session} {fs gs : List Fragment}

namespace Grows

theorem trans (hs : Grows s fs t) (ht : Grows t gs u) : Grows s (fs ++ gs) u := by
  induction ht
  case refl => rwa [List.append_nil]
  case report d _ h => exact h.report d
  case bind ha h => exact h.bind ha
  case skip n _ h => exact h.skip n
  case bytes bs _ h => exact List.append_assoc .. ▸ h.bytes bs
  case pending kind target w _ h => exact List.append_assoc .. ▸ h.pending kind target w

theorem word (h : Grows s fs t) (w : Word) : Grows s (fs ++ [.fixed w.toBytes]) (t.word w) :=
  h.bytes _

theorem base_eq (h : Grows s fs t) : t.base = s.base := by
  induction h <;> first | rfl | assumption

theorem image_eq (h : Grows s fs t) : t.image.toList = s.image.toList ++ Fragment.image fs := by
  induction h
  case refl => simp
  case report | bind | skip => assumption
  case bytes | pending => simp_all [Session.bytes, Session.word, record, Fragment.bytes]

theorem cursor_eq (h : Grows s fs t) :
    t.cursor = s.cursor + BitVec.ofNat 32 (Fragment.image fs).length := by
  simp only [cursor, h.base_eq, ← Array.length_toList, h.image_eq, List.length_append,
    BitVec.ofNat_add, BitVec.add_assoc]

theorem relocations_eq (h : Grows s fs t) :
    t.relocations.toList = s.relocations.toList ++ Fragment.relocations s.cursor fs := by
  induction h
  case refl => simp [Fragment.relocations]
  case report | bind | skip => assumption
  case bytes fs t bs _ ih =>
    simp [Fragment.relocations_append, Fragment.relocations, Session.bytes, ih]
  case pending fs t kind target w h ih =>
    simp [Fragment.relocations_append, Fragment.relocations, Session.word, Session.bytes, record,
      ih, h.cursor_eq]

theorem get?_symbols (h : Grows s fs t) {name : String} {sym : Symbol}
    (hn : s.symbols.get? name = some sym) : t.symbols.get? name = some sym := by
  induction h
  case bind t new symbols _ ha ih =>
    have hnew := SymbolTable.add_eq_ok_iff.mp ⟨_, ha⟩
    rw [SymbolTable.get?_of_add_eq_ok ha, if_neg, ih]
    exact fun e => nomatch (e ▸ hnew).symm.trans ih
  all_goals assumption

theorem diagnostics (h : Grows s fs t) : s.diagnostics.toList <+: t.diagnostics.toList := by
  induction h
  case refl => exact List.prefix_rfl
  case report d _ ih =>
    rw [Session.report, Array.toList_push]
    exact ih.trans (List.prefix_append _ _)
  all_goals assumption

theorem symbols (h : Grows s fs t) : s.symbols.symbols.toList <+: t.symbols.symbols.toList := by
  induction h
  case bind ha ih =>
    rw [SymbolTable.symbols_of_add_eq_ok ha, Array.toList_push]
    exact ih.trans (List.prefix_append _ _)
  case refl => exact List.prefix_rfl
  all_goals assumption

-- What is reported stays reported.
theorem clean (h : Grows s fs t) (ht : t.diagnostics = #[]) : s.diagnostics = #[] := by
  have hd := h.diagnostics
  rw [ht] at hd
  exact Array.toList_eq_nil_iff.mp (List.prefix_nil.mp hd)

end Grows

-- Whether all that a session has produced so far is still there in a later one, in its place.
structure Precedes (s t : Session) : Prop where
  base        : t.base = s.base
  image       : s.image.toList <+: t.image.toList
  symbols     : s.symbols.symbols.toList <+: t.symbols.symbols.toList
  relocations : s.relocations.toList <+: t.relocations.toList
  diagnostics : s.diagnostics.toList <+: t.diagnostics.toList

theorem Grows.precedes (h : Grows s fs t) : s.Precedes t where
  base        := h.base_eq
  image       := h.image_eq ▸ List.prefix_append _ _
  symbols     := h.symbols
  relocations := h.relocations_eq ▸ List.prefix_append _ _
  diagnostics := h.diagnostics

theorem emits_start (base : Word) : (start base).Emits [] :=
  ⟨rfl, rfl⟩

theorem emits_grows (he : s.Emits fs) (h : s.Grows gs t) : t.Emits (fs ++ gs) where
  image := by rw [h.image_eq, he.image, Fragment.image_append]
  relocations := by
    rw [h.relocations_eq, he.relocations, h.base_eq, Fragment.relocations_append, ← he.image]
    rfl

theorem cursor_eq_of_emits (he : s.Emits fs) :
    s.cursor = s.base + BitVec.ofNat 32 (Fragment.image fs).length := by
  rw [cursor, ← he.image, Array.length_toList]

theorem grows_define (s : Session) (sym : Symbol) : Grows s [] (s.define sym) := by
  unfold define
  split
  case h_1 h => exact Grows.refl.bind h
  case h_2 => exact Grows.refl.report _

theorem grows_label (s : Session) (name : String) : Grows s [] (s.label name) := by
  unfold label
  split
  case isTrue => exact Grows.refl.report _
  case isFalse => exact s.grows_define _

theorem grows_anchor (s : Session) (distance : Word) : Grows s [] (s.anchor distance).2 :=
  (Grows.refl.skip _).trans (grows_define _ _)

variable {P : RelocKind → Word → Prop}

theorem grows_zeros (s : Session) (len : Nat) :
    ∃ fs, Grows s fs (s.zeros len) ∧ Fragment.Sole P fs := by
  unfold zeros
  split
  case isTrue => exact ⟨_, Grows.refl.report _, .none⟩
  case isFalse => exact ⟨_, Grows.refl.bytes _, .fixed _⟩

-- An operand is looked at and then the word is emitted.
theorem grows_lowImm (s : Session) (imm : Imm) {f : Word → Word}
    (hP : imm.Symbolic → P .lo (f 0)) :
    ∃ fs, Grows s fs ((s.lowImm imm).2.word (f (s.lowImm imm).1)) ∧ Fragment.Sole P fs := by
  cases imm
  case value v =>
    simp only [lowImm]
    split
    case isTrue => exact ⟨_, Grows.refl.word _, .fixed _⟩
    case isFalse => exact ⟨_, (Grows.refl.report _).word _, .fixed _⟩
  case hi => exact ⟨_, (Grows.refl.report _).word _, .fixed _⟩
  case lo distance =>
    exact ⟨_, (s.grows_anchor distance).pending _ _ _, .pending _ (hP trivial)⟩
  case anchored => exact ⟨_, Grows.refl.pending _ _ _, .pending _ (hP trivial)⟩

theorem grows_upperImm (s : Session) (imm : Imm) {f : Word → Word}
    (hP : imm.Symbolic → P .hi (f 0)) :
    ∃ fs, Grows s fs ((s.upperImm imm).2.word (f (s.upperImm imm).1)) ∧ Fragment.Sole P fs := by
  cases imm
  case value v =>
    simp only [upperImm]
    split
    case isTrue => exact ⟨_, Grows.refl.word _, .fixed _⟩
    case isFalse => exact ⟨_, (Grows.refl.report _).word _, .fixed _⟩
  case hi => exact ⟨_, Grows.refl.pending _ _ _, .pending _ (hP trivial)⟩
  case lo distance => exact ⟨_, ((s.grows_anchor distance).report _).word _, .fixed _⟩
  case anchored => exact ⟨_, (Grows.refl.report _).word _, .fixed _⟩

theorem grows_displacement (s : Session) {kind : RelocKind} (target : Target) {f : Word → Word}
    (hP : target.Symbolic → P kind (f 0)) :
    ∃ fs, Grows s fs ((s.displacement kind target).2.word (f (s.displacement kind target).1)) ∧
      Fragment.Sole P fs := by
  cases target
  case offset disp =>
    simp only [displacement]
    split
    case isTrue => exact ⟨_, Grows.refl.word _, .fixed _⟩
    case isFalse => exact ⟨_, (Grows.refl.report _).word _, .fixed _⟩
  case label => exact ⟨_, Grows.refl.pending _ _ _, .pending _ (hP trivial)⟩

theorem grows_exec (s : Session) (st : Stmt) :
    ∃ fs, Grows s fs (s.exec st) ∧ Fragment.Sole st.Leaves fs := by
  cases st
  case emitRegister | word => exact ⟨_, Grows.refl.word _, .fixed _⟩
  case emitImmediate imm => exact s.grows_lowImm imm .immediate
  case emitStore imm => exact s.grows_lowImm imm .store
  case emitBranch target => exact s.grows_displacement target .branch
  case emitJump target => exact s.grows_displacement target .jump
  case emitUpper imm => exact s.grows_upperImm imm .upper
  case emitShift amount =>
    simp only [exec, shiftAmount]
    split
    case isTrue => exact ⟨_, Grows.refl.word _, .fixed _⟩
    case isFalse => exact ⟨_, (Grows.refl.report _).word _, .fixed _⟩
  case wordOf symbol => exact ⟨_, Grows.refl.pending .word symbol 0, .pending _ .wordOf⟩
  case bytes bs => exact ⟨_, Grows.refl.bytes bs, .fixed bs⟩
  case zeros len => exact s.grows_zeros len
  case align n =>
    simp only [exec, align]
    split
    case isTrue => exact s.grows_zeros _
    case isFalse => exact ⟨_, Grows.refl, .none⟩
  case label name => exact ⟨_, s.grows_label name, .none⟩
  case define sym => exact ⟨_, s.grows_define sym, .none⟩
  case anchor distance => exact ⟨_, s.grows_anchor distance, .none⟩
  case report d => exact ⟨_, Grows.refl.report d, .none⟩

theorem bytes_bytes (s : Session) (a b : List Byte) : (s.bytes a).bytes b = s.bytes (a ++ b) := by
  have h : s.image ++ a ++ b = s.image ++ (a ++ b) := Array.ext' (by simp)
  simp only [bytes, h]

theorem run_append (s : Session) (xs ys : List Stmt) : s.run (xs ++ ys) = (s.run xs).run ys :=
  List.foldl_append ..

theorem grows_run (s : Session) (stmts : List Stmt) : ∃ fs, Grows s fs (s.run stmts) := by
  induction stmts generalizing s
  case nil => exact ⟨_, Grows.refl⟩
  case cons st stmts ih =>
    have ⟨_, hs, _⟩ := s.grows_exec st
    have ⟨_, ht⟩ := ih (s.exec st)
    exact ⟨_, hs.trans ht⟩

end Session

end RV32IM
