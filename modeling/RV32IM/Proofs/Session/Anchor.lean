import RV32IM.Proofs.Session.Growth

-- Anchors. The search for a name always ends with one that is not bound, so an anchor is always
-- bound to the address that was asked for. The numbers that the search has left behind are all
-- those of bound anchors, so there are no more of them than symbols.

namespace RV32IM.Session

theorem anchorName_injective {m n : Nat} (h : anchorName m = anchorName n) : m = n := by
  have hd : Nat.toDigits 10 m = Nat.toDigits 10 n := by
    have hl := congrArg String.toList h
    simpa [anchorName, Numeral.decimal] using hl
  rw [← Nat.ofDigitChars_ten_toDigits (n := m), hd, Nat.ofDigitChars_ten_toDigits]

-- The search goes on up to a number only if the anchors before it are bound, and no further than it
-- may.
theorem freshFrom_bounds (t : SymbolTable) (tries n : Nat) :
    n ≤ freshFrom t tries n ∧ freshFrom t tries n ≤ n + tries ∧
      ∀ k, n ≤ k → k < freshFrom t tries n → t.contains (anchorName k) := by
  induction tries generalizing n
  case zero => exact ⟨Nat.le_refl n, Nat.le_refl n, fun k hn hk => absurd hn (Nat.not_le.mpr hk)⟩
  case succ tries ih =>
    rw [freshFrom]
    split
    case isFalse => exact ⟨Nat.le_refl n, by omega, fun k hn hk => absurd hn (Nat.not_le.mpr hk)⟩
    case isTrue hc =>
      have ⟨hle, hlt, hall⟩ := ih (n + 1)
      refine ⟨by omega, by omega, fun k hn hk => ?_⟩
      rcases Nat.eq_or_lt_of_le hn with rfl | hn
      case inl => exact hc
      case inr => exact hall k hn hk

-- The search stops at a bound anchor only if it may go no further.
theorem freshFrom_eq_of_contains {t : SymbolTable} {tries n : Nat}
    (h : t.contains (anchorName (freshFrom t tries n))) : freshFrom t tries n = n + tries := by
  induction tries generalizing n
  case zero => rfl
  case succ tries ih =>
    rw [freshFrom] at h ⊢
    split at h
    case isFalse hc => exact absurd h hc
    case isTrue hc =>
      rw [if_pos hc, ih h]
      omega

theorem mem_names_of_contains {t : SymbolTable} {name : String} (h : t.contains name) :
    name ∈ t.symbols.toList.map Symbol.name := by
  have ⟨sym, hs⟩ := Option.isSome_iff_exists.mp (SymbolTable.contains_iff.mp h)
  have ⟨hm, hn⟩ := SymbolTable.get?_eq_some_iff.mp hs
  exact List.mem_map.mpr ⟨sym, Array.mem_toList_iff.mpr hm, hn⟩

-- A table has no room for more anchors than it has symbols.
theorem le_size_of_contains {t : SymbolTable} {n m : Nat}
    (h : ∀ k < m, t.contains (anchorName (n + k))) : m ≤ t.size := by
  let names := (List.range m).map fun k => anchorName (n + k)
  have hnodup : names.Nodup := by
    refine List.Pairwise.map _ (fun j k hjk he => ?_) List.nodup_range
    exact hjk (Nat.add_left_cancel (anchorName_injective he))
  have hsub : names ⊆ t.symbols.toList.map Symbol.name := by
    intro name hname
    have ⟨k, hk, he⟩ := List.mem_map.mp hname
    exact he ▸ mem_names_of_contains (h k (List.mem_range.mp hk))
  have hlen := hnodup.length_le_of_subset hsub
  simpa [names, SymbolTable.size] using hlen

theorem not_contains_freshFrom (t : SymbolTable) (n : Nat) :
    ¬t.contains (anchorName (freshFrom t t.size n)) := by
  intro h
  have ⟨_, _, hall⟩ := freshFrom_bounds t t.size n
  have heq := freshFrom_eq_of_contains h
  rw [heq] at h hall
  have hle : t.size + 1 ≤ t.size := by
    refine le_size_of_contains (n := n) fun k hk => ?_
    rcases Nat.lt_succ_iff_lt_or_eq.mp hk with hk | rfl
    case inl => exact hall _ (by omega) (by omega)
    case inr => exact h
  omega

-- A name that is free is bound and nothing else changes.
theorem define_of_free {s : Session} {sym : Symbol} (h : s.symbols.get? sym.name = none) :
    (s.define sym).symbols.symbols = s.symbols.symbols.push sym ∧
      s.define sym = { s with symbols := (s.define sym).symbols } := by
  have ⟨symbols, ha⟩ := SymbolTable.add_eq_ok_iff.mpr h
  simp only [define, ha, and_true]
  exact SymbolTable.symbols_of_add_eq_ok ha

theorem get?_anchorName_freshFrom (s : Session) :
    s.symbols.get? (anchorName (freshFrom s.symbols s.symbols.size s.nextAnchor)) = none := by
  have hfree := not_contains_freshFrom s.symbols s.nextAnchor
  rwa [SymbolTable.contains_iff, Option.not_isSome_iff_eq_none] at hfree

-- What becomes of a session that is asked for an anchor, with the number of the anchor. It is the
-- first number from the counter on whose name is free.
structure Anchors (s : Session) (distance : Word) (n : Nat) (t : Session) : Prop where
  first   : s.nextAnchor ≤ n ∧ ∀ k, s.nextAnchor ≤ k → k < n → s.symbols.contains (anchorName k)
  tries   : n ≤ s.nextAnchor + s.symbols.size
  fresh   : s.symbols.get? (anchorName n) = none
  symbols : t.symbols.symbols =
    s.symbols.symbols.push ⟨anchorName n, s.cursor - distance, true⟩
  rest    : t = { s with symbols := t.symbols, nextAnchor := n + 1 }

theorem anchors_anchor (s : Session) (distance : Word) :
    ∃ n, (s.anchor distance).1 = anchorName n ∧ s.Anchors distance n (s.anchor distance).2 := by
  have ⟨hle, hlt, hall⟩ := freshFrom_bounds s.symbols s.symbols.size s.nextAnchor
  have hfree := s.get?_anchorName_freshFrom
  refine ⟨_, rfl, ⟨hle, hall⟩, hlt, hfree, ?_, ?_⟩
  case refine_1 => exact (define_of_free hfree).left
  case refine_2 => exact (define_of_free hfree).right

theorem get?_anchor (s : Session) (distance : Word) :
    (s.anchor distance).2.symbols.get? (s.anchor distance).1 =
      some ⟨(s.anchor distance).1, s.cursor - distance, true⟩ := by
  obtain ⟨n, hn, ha⟩ := s.anchors_anchor distance
  rw [hn, SymbolTable.get?_eq_some_iff, ha.symbols]
  exact ⟨Array.mem_push_self, rfl⟩

-- Whether all numbers below the counter are those of bound anchors.
def Counted (s : Session) : Prop :=
  ∀ k < s.nextAnchor, s.symbols.contains (anchorName k)

namespace Counted

variable {s t : Session} {fs : List Fragment}

theorem le_size (h : s.Counted) : s.nextAnchor ≤ s.symbols.size :=
  le_size_of_contains (n := 0) fun k hk => (Nat.zero_add k).symm ▸ h k hk

theorem grows (h : s.Counted) (hg : s.Grows fs t) (hn : t.nextAnchor = s.nextAnchor) :
    t.Counted := by
  intro k hk
  have hc := h k (hn ▸ hk)
  rw [SymbolTable.contains_iff, Option.isSome_iff_exists] at hc ⊢
  exact hc.imp fun _ => hg.get?_symbols

theorem define (h : s.Counted) (sym : Symbol) : (s.define sym).Counted := by
  refine h.grows (s.grows_define sym) ?_
  unfold Session.define
  split <;> rfl

theorem anchor (h : s.Counted) (distance : Word) : (s.anchor distance).2.Counted := by
  obtain ⟨n, hn, ha⟩ := s.anchors_anchor distance
  intro k hk
  rw [ha.rest] at hk
  rw [SymbolTable.contains_iff]
  rcases Nat.lt_succ_iff_lt_or_eq.mp hk with hk | rfl
  case inr => rw [← hn, s.get?_anchor distance, Option.isSome_some]
  case inl =>
    have hc : s.symbols.contains (anchorName k) := by
      by_cases hlt : k < s.nextAnchor
      case pos => exact h k hlt
      case neg => exact ha.first.right k (Nat.le_of_not_lt hlt) hk
    rw [SymbolTable.contains_iff, Option.isSome_iff_exists] at hc
    have ⟨_, hs⟩ := hc
    rw [(s.grows_anchor distance).get?_symbols hs]
    rfl

theorem lowImm (h : s.Counted) (imm : Imm) : (s.lowImm imm).2.Counted := by
  cases imm
  case value =>
    simp only [Session.lowImm]
    split <;> exact h
  case hi | anchored => exact h
  case lo distance => exact h.anchor distance

theorem upperImm (h : s.Counted) (imm : Imm) : (s.upperImm imm).2.Counted := by
  cases imm
  case value =>
    simp only [Session.upperImm]
    split <;> exact h
  case hi | anchored => exact h
  case lo distance => exact h.anchor distance

theorem displacement (h : s.Counted) (kind : RelocKind) (target : Target) :
    (s.displacement kind target).2.Counted := by
  cases target
  case offset =>
    simp only [Session.displacement]
    split <;> exact h
  case label => exact h

theorem zeros (h : s.Counted) (len : Nat) : (s.zeros len).Counted := by
  unfold Session.zeros
  split <;> exact h

theorem exec (h : s.Counted) (st : Stmt) : (s.exec st).Counted := by
  cases st
  case emitRegister | word | wordOf | bytes | report => exact h
  case emitImmediate imm | emitStore imm => exact h.lowImm imm
  case emitUpper imm => exact h.upperImm imm
  case emitBranch target => exact h.displacement .branch target
  case emitJump target => exact h.displacement .jump target
  case emitShift amount =>
    simp only [Session.exec, shiftAmount]
    split <;> exact h
  case zeros len => exact h.zeros len
  case align n =>
    simp only [Session.exec, align]
    split
    case isTrue  => exact h.zeros _
    case isFalse => exact h
  case label name =>
    simp only [Session.exec, label]
    split
    case isTrue  => exact h
    case isFalse => exact h.define _
  case define sym => exact h.define sym
  case anchor distance => exact h.anchor distance

end Counted

theorem counted_run (base : Word) (stmts : List Stmt) : ((start base).run stmts).Counted := by
  refine List.foldlRecOn stmts exec (motive := Counted) (fun _ hk => nomatch hk) ?_
  exact fun _ h st _ => h.exec st

end RV32IM.Session
