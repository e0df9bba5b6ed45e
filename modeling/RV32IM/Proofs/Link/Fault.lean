import RV32IM.Proofs.Link.Site
import RV32IM.Proofs.Link.Value
import RV32IM.Proofs.Session.Emission

-- Faults of relocations: what keeps one from being applied, and what is then reported of it. A
-- relocation has at most one fault, and none if the symbols it needs are bound and its target is in
-- reach.

namespace RV32IM

namespace Relocation

variable (symbols : SymbolTable) (relocs : Array Relocation)

inductive Fault (r : Relocation) : Diagnostic → Prop
  | undefined :
    symbols.address? r.target = none → Fault r (.undefinedSymbol r.target r.site)
  -- A displacement that is odd or does not fit the instruction.
  | unreachable {address : Word} :
    r.kind = .jump ∨ r.kind = .branch → symbols.address? r.target = some address →
    (address - r.site).toInt % 2 ≠ 0 ∨ (address - r.site).toInt < -2 ^ (r.kind.width - 1) ∨
      2 ^ (r.kind.width - 1) ≤ (address - r.site).toInt →
    Fault r (.outOfRange r.site r.kind (address - r.site).toInt)
  | unpaired {anchor : Word} :
    r.kind = .lo → symbols.address? r.target = some anchor →
    (∀ hi ∈ relocs, hi.kind = .hi → hi.site ≠ anchor) → Fault r (.missingHiPair r.site anchor)
  -- The displacement whose lower part is asked for is to a symbol of its own.
  | undefinedPair {hi : Relocation} :
    r.kind = .lo → symbols.address? r.target = some hi.site → hi ∈ relocs → hi.kind = .hi →
    symbols.address? hi.target = none → Fault r (.undefinedSymbol hi.target r.site)

-- The diagnostic that linking reports of a relocation, if any.
def fault? (r : Relocation) : Option Diagnostic :=
  match r.value symbols relocs with
  | .ok _ => none
  | .error d => some d

variable {symbols relocs} {r : Relocation} {d : Diagnostic}

theorem value_eq_error_iff :
    r.value symbols relocs = .error d ↔ r.fault? symbols relocs = some d := by
  unfold fault?
  split <;> simp_all

theorem hiAt?_eq_none_iff {address : Word} :
    hiAt? relocs address = none ↔ ∀ hi ∈ relocs, hi.kind = .hi → hi.site ≠ address := by
  simp [hiAt?, Array.findRev?_eq_find?_reverse]

theorem not_reaches_iff {disp : Word} {kind : RelocKind} :
    ¬Session.reaches disp kind ↔ disp.toInt % 2 ≠ 0 ∨ disp.toInt < -2 ^ (kind.width - 1) ∨
      2 ^ (kind.width - 1) ≤ disp.toInt := by
  rw [Session.reaches_iff]
  omega

theorem value_eq_error_of_fault (hd : relocs.toList.Pairwise fun r q => r.site ≠ q.site)
    (h : r.Fault symbols relocs d) : r.value symbols relocs = .error d := by
  obtain ⟨site, kind, target⟩ := r
  cases h
  case undefined ha =>
    rw [value, resolve_eq_error_iff.mpr ⟨ha, rfl⟩]
    rfl
  case unreachable address hk ha hr =>
    have hr := not_reaches_iff.mpr hr
    rw [value, resolve_eq_ok_iff.mpr ha]
    rcases hk with rfl | rfl <;> exact if_neg hr
  case unpaired anchor hk ha hnone =>
    cases hk
    rw [value, resolve_eq_ok_iff.mpr ha]
    simp only [bind, Except.bind, hiAt?_eq_none_iff.mpr hnone]
    rfl
  case undefinedPair hi hk ha hmem hkind hnone =>
    cases hk
    have hhi := (hiAt?_eq_some_iff hd).mpr ⟨Array.mem_toList_iff.mpr hmem, hkind, rfl⟩
    rw [value, resolve_eq_ok_iff.mpr ha]
    simp only [bind, Except.bind, hhi, resolve_eq_error_iff.mpr ⟨hnone, rfl⟩]

theorem fault_of_value_eq_error (hd : relocs.toList.Pairwise fun r q => r.site ≠ q.site)
    (h : r.value symbols relocs = .error d) : r.Fault symbols relocs d := by
  obtain ⟨site, kind, target⟩ := r
  cases ha : symbols.address? target
  case none =>
    rw [value, resolve_eq_error_iff.mpr ⟨ha, rfl⟩] at h
    cases h
    exact .undefined ha
  case some address =>
    rw [value, resolve_eq_ok_iff.mpr ha] at h
    cases kind
    case jump | branch =>
      simp only [bind, Except.bind] at h
      split at h
      case isTrue => cases h
      case isFalse hr =>
        cases h
        exact .unreachable (by simp) ha (not_reaches_iff.mp hr)
    case word | hi => cases h
    case lo =>
      simp only [bind, Except.bind] at h
      split at h
      case h_1 hnone =>
        cases h
        exact .unpaired rfl ha (hiAt?_eq_none_iff.mp hnone)
      case h_2 hi hhi =>
        obtain ⟨hmem, hkind, rfl⟩ := (hiAt?_eq_some_iff hd).mp hhi
        cases hp : symbols.address? hi.target
        case some => simp [resolve_eq_ok_iff.mpr hp, pure, Except.pure] at h
        case none =>
          rw [resolve_eq_error_iff.mpr ⟨hp, rfl⟩] at h
          cases h
          exact .undefinedPair rfl ha (Array.mem_toList_iff.mp hmem) hkind hp

theorem fault?_eq_some_iff (hd : relocs.toList.Pairwise fun r q => r.site ≠ q.site) :
    r.fault? symbols relocs = some d ↔ r.Fault symbols relocs d :=
  value_eq_error_iff.symm.trans ⟨fault_of_value_eq_error hd, value_eq_error_of_fault hd⟩

end Relocation

namespace Fragment

variable {symbols : SymbolTable} {relocs : Array Relocation}

-- Linking reports the faults of the relocations in the order in which these were recorded.
theorem allFaults_eq (site : Word) (fs : List Fragment) :
    allFaults symbols relocs site fs =
      (relocations site fs).filterMap (Relocation.fault? symbols relocs) := by
  induction fs generalizing site
  case nil => rfl
  case cons f fs ih =>
    rw [allFaults, relocations_cons, List.filterMap_append, ih]
    congr 1
    cases f
    case fixed => rfl
    case pending kind target w =>
      simp only [faults, relocations, List.filterMap, Relocation.fault?, Relocation.patch]
      cases Relocation.value ⟨site, kind, target⟩ symbols relocs <;> rfl

end Fragment

end RV32IM
