import RV32IM.Link
import RV32IM.Proofs.Instr.Patch
import RV32IM.Proofs.Memory.Mapping

-- What a relocation puts in place of its target, and where. The number is the one that the source
-- would have had to give, and the word is the one that it would have been assembled to.

namespace RV32IM

-- The bits of a word that relocations of a kind fill.
def RelocKind.layout (w : Word) : RelocKind → Layout
  | jump => Layout.jImm
  | branch => Layout.bImm
  | word => [⟨0, 32⟩]
  | hi => Layout.uImm
  | lo => Relocation.lowLayout w

-- The formats whose immediate takes the number of a relocation.
def RelocKind.Suits : RelocKind → Format → Prop
  | jump, f => f = .jump
  | branch, f => f = .branch
  | word, _ => False
  | hi, f => f = .upper
  | lo, f => f = .imm ∨ f = .load ∨ f = .store

namespace Relocation

section Fill

theorem confines_fill (w v : Word) (kind : RelocKind) :
    (kind.layout w).Confines w (fill w v kind) := by
  cases kind
  case word => exact fun n hn h => absurd ⟨n.zero_le, by omega⟩ (h _ (List.mem_singleton_self _))
  all_goals exact Layout.confines_replace _ _ _

section Confines

variable {w w' : Word} {kind : RelocKind}

-- What selects the layout is not in it.
theorem layout_eq_of_confines (h : (kind.layout w).Confines w w') :
    kind.layout w' = kind.layout w := by
  cases kind
  case lo =>
    have hd : ∀ f ∈ lowLayout w, f.Disjoint ⟨0, 7⟩ := by
      unfold lowLayout
      split <;> decide
    simp only [RelocKind.layout, lowLayout, extractLsb'_eq_iff.mpr (h.extract_eq hd)]
  all_goals rfl

-- A number takes the place of whatever was filled in before.
theorem fill_eq_of_confines (h : (kind.layout w).Confines w w') (v : Word) :
    fill w' v kind = fill w v kind := by
  have hl := layout_eq_of_confines h
  cases kind
  case word => rfl
  case lo =>
    simp only [RelocKind.layout] at h hl
    rw [fill, hl, h.replace_eq, fill]
  all_goals exact h.replace_eq _

end Confines

variable {i : Instr} {kind : RelocKind}

theorem layout_of_key {op : Op} {w : Word} (hk : Key.ofWord w = op.key)
    (hs : kind.Suits op.format) : kind.layout w = op.format.layout := by
  cases kind
  case word => exact hs.elim
  case lo =>
    rw [RelocKind.layout, lowLayout, ← Key.opcode_ofWord, hk]
    cases op <;> simp_all [RelocKind.Suits, Op.format, Op.coding, Op.key, Format.layout]
  all_goals
    rw [show op.format = _ from hs]
    rfl

theorem layout_encode (hi : i.RegsFit) (hs : kind.Suits i.op.format) :
    kind.layout i.encode = i.op.format.layout :=
  layout_of_key (Instr.ofWord_encode hi) hs

theorem fill_low (hi : i.RegsFit) (h0 : i.imm = 0)
    (h : i.op.format = .imm ∨ i.op.format = .load ∨ i.op.format = .store) (v : Word) :
    fill i.encode v .lo = { i with imm := v }.encode := by
  have hv := Instr.replace_encode hi h0 v
  have hs : i.op.format.scale = 0 := by rcases h with h | h | h <;> rw [h] <;> rfl
  rw [hs, BitVec.ushiftRight_zero] at hv
  have hl : RelocKind.lo.layout i.encode = i.op.format.layout := layout_encode hi h
  rw [fill, show lowLayout i.encode = _ from hl, hv]

theorem fill_branch (hi : i.RegsFit) (h0 : i.imm = 0) (h : i.op.format = .branch) (v : Word) :
    fill i.encode v .branch = { i with imm := v }.encode := by
  have hv := Instr.replace_encode hi h0 v
  rw [h] at hv
  exact hv

theorem fill_jump (hi : i.RegsFit) (h0 : i.imm = 0) (h : i.op.format = .jump) (v : Word) :
    fill i.encode v .jump = { i with imm := v }.encode := by
  have hv := Instr.replace_encode hi h0 v
  rw [h] at hv
  exact hv

theorem fill_upper (hi : i.RegsFit) (h0 : i.imm = 0) (h : i.op.format = .upper) {v : Word}
    (hv : v.toNat < 2 ^ 20) : fill i.encode v .hi = { i with imm := v <<< 12 }.encode := by
  have hw := Instr.replace_encode hi h0 (v <<< 12)
  have hs : (v <<< 12) >>> 12 = v := by
    apply BitVec.eq_of_toNat_eq
    simp only [BitVec.toNat_ushiftRight, BitVec.toNat_shiftLeft, Nat.shiftLeft_eq,
      Nat.shiftRight_eq_div_pow]
    omega
  rw [h, Format.scale, hs] at hw
  exact hw

end Fill

section Value

variable {symbols : SymbolTable} {relocs : Array Relocation} {site v : Word} {target : String}

theorem resolve_eq_ok_iff {name : String} {address : Word} :
    resolve symbols name site = .ok address ↔ symbols.address? name = some address := by
  unfold resolve
  split <;> simp_all

theorem resolve_eq_error_iff {name : String} {d : Diagnostic} :
    resolve symbols name site = .error d ↔
      symbols.address? name = none ∧ d = .undefinedSymbol name site := by
  unfold resolve
  cases symbols.address? name <;> simp [eq_comm]

-- Of the other relocations only those of upper parts matter.
theorem value_congr {relocs' : Array Relocation} (h : hiAt? relocs' = hiAt? relocs)
    (r : Relocation) (symbols : SymbolTable) :
    r.value symbols relocs' = r.value symbols relocs := by
  unfold value
  rw [h]

theorem value_displacement {kind : RelocKind} (hk : kind = .jump ∨ kind = .branch)
    (h : value ⟨site, kind, target⟩ symbols relocs = .ok v) :
    (symbols.address? target).map (· - site) = some v ∧ Session.reaches v kind := by
  have ⟨address, ha, h⟩ := exists_of_bind_eq_ok h
  rw [resolve_eq_ok_iff] at ha
  rcases hk with hk | hk
  all_goals
    subst hk
    simp only at h
    split at h
    case isTrue hr =>
      cases h
      exact ⟨by rw [ha, Option.map_some], hr⟩
    case isFalse => cases h

theorem value_word (h : value ⟨site, .word, target⟩ symbols relocs = .ok v) :
    symbols.address? target = some v := by
  have ⟨address, ha, h⟩ := exists_of_bind_eq_ok h
  cases h
  exact resolve_eq_ok_iff.mp ha

theorem value_hi (h : value ⟨site, .hi, target⟩ symbols relocs = .ok v) :
    (symbols.address? target).map (fun address => (splitDisplacement (address - site)).1) =
      some v := by
  have ⟨address, ha, h⟩ := exists_of_bind_eq_ok h
  cases h
  rw [resolve_eq_ok_iff.mp ha, Option.map_some]

theorem value_lo (h : value ⟨site, .lo, target⟩ symbols relocs = .ok v) :
    ∃ anchor hi address, symbols.address? target = some anchor ∧ hiAt? relocs anchor = some hi ∧
      symbols.address? hi.target = some address ∧ v = (splitDisplacement (address - anchor)).2 := by
  have ⟨anchor, ha, h⟩ := exists_of_bind_eq_ok h
  simp only at h
  split at h
  case h_1 => cases h
  case h_2 hi hhi =>
    have ⟨address, hr, h⟩ := exists_of_bind_eq_ok h
    cases h
    exact ⟨anchor, hi, address, resolve_eq_ok_iff.mp ha, hhi, resolve_eq_ok_iff.mp hr, rfl⟩

theorem value_displacement_eq_ok {kind : RelocKind} {address : Word}
    (hk : kind = .jump ∨ kind = .branch) (ha : symbols.address? target = some address)
    (hr : Session.reaches (address - site) kind) :
    value ⟨site, kind, target⟩ symbols relocs = .ok (address - site) := by
  rw [value, resolve_eq_ok_iff.mpr ha]
  rcases hk with rfl | rfl <;> exact if_pos hr

theorem value_word_eq_ok {address : Word} (ha : symbols.address? target = some address) :
    value ⟨site, .word, target⟩ symbols relocs = .ok address := by
  rw [value, resolve_eq_ok_iff.mpr ha]
  rfl

theorem value_hi_eq_ok {address : Word} (ha : symbols.address? target = some address) :
    value ⟨site, .hi, target⟩ symbols relocs = .ok (splitDisplacement (address - site)).1 := by
  rw [value, resolve_eq_ok_iff.mpr ha]
  rfl

theorem value_lo_eq_ok {anchor address : Word} {hi : Relocation}
    (ha : symbols.address? target = some anchor) (hhi : hiAt? relocs anchor = some hi)
    (hr : symbols.address? hi.target = some address) :
    value ⟨site, .lo, target⟩ symbols relocs =
      .ok (splitDisplacement (address - anchor)).2 := by
  rw [value, resolve_eq_ok_iff.mpr ha]
  simp only [bind, Except.bind, hhi, resolve_eq_ok_iff.mpr hr]
  rfl

end Value

end Relocation

end RV32IM
