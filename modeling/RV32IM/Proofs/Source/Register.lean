import RV32IM.Proofs.Text.Digits
import RV32IM.Source.Operand

-- The grammar of register operands: which texts name a register, and which one. White space around
-- a name and the case of its letters do not count. A plus sign in front of a register's number is
-- let pass besides.

namespace RV32IM

open Numeral

namespace Reg

-- A register by its number, with a sign that stands behind the letter.
inductive Numbered (sign : List Char) : List Char → Reg → Prop
  | intro {ds n} : ds ≠ [] → Digits 10 ds n → n < 32 →
    Numbered sign ('x' :: (sign ++ ds)) ⟨BitVec.ofNat 5 n⟩

-- The names of a register, in lower case.
inductive Named : List Char → Reg → Prop
  | number {cs r} : Numbered [] cs r → Named cs r
  | convention (r : Reg) : Named r.abiName.toList r
  | frame : Named ['f', 'p'] ⟨8⟩

-- What is left of a text without the white space around it, in lower case.
def folded (cs : List Char) : List Char :=
  Text.lower (Text.trim cs)

variable {cs : List Char} {r : Reg}

section Reading

theorem ofNumber?_of_head (h : cs.head? ≠ some 'x') : ofNumber? cs = none := by
  unfold ofNumber?
  split
  case h_1 => simp at h
  case h_2 => rfl

theorem ofNumber?_eq_some_iff :
    ofNumber? cs = some r ↔ Numbered [] cs r ∨ Numbered ['+'] cs r := by
  have hread {cs n} : natural 10 256 cs = .ok n ↔ _ := natural_eq_ok_iff (by decide) (by decide)
  constructor
  case mp =>
    intro h
    unfold ofNumber? at h
    split at h
    case h_2 => cases h
    case h_1 cs =>
      split at h
      case h_2 => cases h
      case h_1 n hn =>
        split at h
        case isFalse => cases h
        case isTrue hlt =>
          cases h
          obtain ⟨ds, rfl | rfl, hne, hd, -⟩ := hread.mp hn
          case inl => exact .inl (.intro hne hd hlt)
          case inr => exact .inr (.intro hne hd hlt)
  case mpr =>
    rintro (⟨hne, hd, hlt⟩ | ⟨hne, hd, hlt⟩)
    case inl => simp [ofNumber?, hread.mpr ⟨_, .inl rfl, hne, hd, by omega⟩, hlt]
    case inr => simp [ofNumber?, hread.mpr ⟨_, .inr rfl, hne, hd, by omega⟩, hlt]

theorem ofAbiName?_eq_some_iff :
    ofAbiName? cs = some r ↔ cs = ['f', 'p'] ∧ r = ⟨8⟩ ∨ cs = r.abiName.toList := by
  have hall : ∀ i : BitVec 5, ofAbiName? (abiName ⟨i⟩).toList = some ⟨i⟩ := by decide
  constructor
  case mp =>
    intro h
    unfold ofAbiName? at h
    split at h
    case isTrue hfp => exact .inl ⟨hfp, (Option.some.inj h).symm⟩
    case isFalse =>
      have hname := List.find?_some h
      exact .inr (of_decide_eq_true hname).symm
  case mpr =>
    rintro (⟨rfl, rfl⟩ | rfl)
    case inl => rfl
    case inr => exact hall r.index

-- No name begins like a number.
theorem head?_of_ofAbiName? (h : ofAbiName? cs = some r) : cs.head? ≠ some 'x' := by
  have hall : ∀ i : BitVec 5, (abiName ⟨i⟩).toList.head? ≠ some 'x' := by decide
  rcases ofAbiName?_eq_some_iff.mp h with ⟨rfl, -⟩ | rfl
  case inl => decide
  case inr => exact hall r.index

theorem orElse_eq_some_iff :
    (ofNumber? cs <|> ofAbiName? cs) = some r ↔ ofNumber? cs = some r ∨ ofAbiName? cs = some r := by
  constructor
  case mp =>
    intro h
    cases hn : ofNumber? cs
    case none => exact .inr (by simpa [hn] using h)
    case some => exact .inl (by simpa [hn] using h)
  case mpr =>
    rintro (h | h)
    case inl => simp [h]
    case inr => simp [ofNumber?_of_head (head?_of_ofAbiName? h), h]

theorem ofText?_eq_some_iff :
    ofText? cs = some r ↔ Named (folded cs) r ∨ Numbered ['+'] (folded cs) r := by
  rw [ofText?, orElse_eq_some_iff, ofNumber?_eq_some_iff, ofAbiName?_eq_some_iff, ← folded]
  generalize folded cs = name
  constructor
  case mp =>
    rintro ((h | h) | ⟨rfl, rfl⟩ | rfl)
    case inl.inl => exact .inl (.number h)
    case inl.inr => exact .inr h
    case inr.inl => exact .inl .frame
    case inr.inr => exact .inl (.convention r)
  case mpr =>
    rintro (h | h)
    case inr => exact .inl (.inr h)
    case inl =>
      cases h
      case number h => exact .inl (.inl h)
      case convention => exact .inr (.inr rfl)
      case frame => exact .inr (.inl ⟨rfl, rfl⟩)

theorem Named.plus_not_mem (h : Named cs r) : '+' ∉ cs := by
  have hall : ∀ i : BitVec 5, '+' ∉ (abiName ⟨i⟩).toList := by decide
  cases h
  case number h =>
    cases h
    case intro hd _ =>
      have hplus := hd.not_mem (digit?_plus 10) (by decide)
      exact List.not_mem_cons_of_ne_of_not_mem (by decide) hplus
  case convention => exact hall r.index
  case frame => decide

theorem Numbered.head?_tail (h : Numbered ['+'] cs r) : cs.tail.head? = some '+' := by
  cases h
  rfl

end Reading

end Reg

namespace Source

open Reg

variable {cs : Chars} {r : Reg}

theorem register_eq_ok_iff : register cs = .ok r ↔ ofText? cs = some r := by
  unfold register
  split <;> simp_all

theorem register_eq_error_iff :
    register cs = .error (.register (String.ofList (Text.trim cs))) ↔
      ∀ r, ¬ofText? cs = some r := by
  unfold register
  split <;> simp_all

-- A text is read exactly if it names a register or has a register's number with a plus sign, and
-- any other is refused as it stands between the white space around it. If there is no plus sign
-- behind the first letter, it is read exactly if it names a register.
theorem register_grammar (cs : Chars) :
    (∀ r, register cs = .ok r ↔ Named (folded cs) r ∨ Numbered ['+'] (folded cs) r) ∧
    (register cs = .error (.register (String.ofList (Text.trim cs))) ↔
      ∀ r, ¬(Named (folded cs) r ∨ Numbered ['+'] (folded cs) r)) ∧
    ((folded cs).tail.head? ≠ some '+' →
      (∀ r, register cs = .ok r ↔ Named (folded cs) r) ∧
      (register cs = .error (.register (String.ofList (Text.trim cs))) ↔
        ∀ r, ¬Named (folded cs) r)) := by
  have hread (r : Reg) :
      register cs = .ok r ↔ Named (folded cs) r ∨ Numbered ['+'] (folded cs) r :=
    register_eq_ok_iff.trans ofText?_eq_some_iff
  have hrefused :
      register cs = .error (.register (String.ofList (Text.trim cs))) ↔
        ∀ r, ¬(Named (folded cs) r ∨ Numbered ['+'] (folded cs) r) :=
    register_eq_error_iff.trans (forall_congr' fun _ => not_congr ofText?_eq_some_iff)
  refine ⟨hread, hrefused, fun hp => ?_⟩
  have hplus r : ¬Numbered ['+'] (folded cs) r := fun h => hp h.head?_tail
  simp only [hplus, or_false] at hread hrefused
  exact ⟨hread, hrefused⟩

-- Leading zeros are digits like others.
theorem register_padded :
    (folded " X017\t".toList).tail.head? ≠ some '+' ∧ register " X017\t".toList = .ok ⟨17⟩ := by
  have hplus : (folded " X017\t".toList).tail.head? ≠ some '+' := by decide
  have hfolded : folded " X017\t".toList = ['x', '0', '1', '7'] := by decide
  have hzero : IsDigit 10 '0' 0 := ⟨by decide, by decide⟩
  have hone : IsDigit 10 '1' 1 := ⟨by decide, by decide⟩
  have hseven : IsDigit 10 '7' 7 := ⟨by decide, by decide⟩
  have hdigits : Digits 10 ['0', '1', '7'] 17 := .cons hzero (.cons hone (.cons hseven .nil))
  have hnamed : Named ['x', '0', '1', '7'] ⟨17⟩ := .number (.intro nofun hdigits (by decide))
  have hread := ((register_grammar " X017\t".toList).right.right hplus).left
  exact ⟨hplus, (hread ⟨17⟩).mpr (hfolded ▸ hnamed)⟩

-- A plus sign is let pass, with the register of the digits behind it.
theorem register_plus :
    register "x+5".toList = .ok ⟨5⟩ ∧ ∀ r, ¬Named (folded "x+5".toList) r :=
  ⟨by decide, fun _ h => h.plus_not_mem (by decide)⟩

end Source

end RV32IM
