import RV32IM.Proofs.Layout.SignExtend
import RV32IM.Proofs.Source.Operand
import RV32IM.Proofs.Text.Digits

-- The grammar of number literals: which texts are read as a number, and as which. A text with one
-- sign at most, which comes first, is read exactly if it is a literal. A second sign is let pass in
-- front of the digits, and then the number may wrap around.

namespace RV32IM.Source

open Numeral

-- What is left of a text without the white space around it and without underscores.
def bare (cs : Chars) : Chars :=
  (Text.trim cs).filter (· ≠ '_')

-- What stands in front of digits to tell their radix.
inductive RadixMark : Chars → Nat → Prop
  | decimal : RadixMark [] 10
  | hexadecimal {x} : x = 'x' ∨ x = 'X' → RadixMark ['0', x] 16
  | binary {b} : b = 'b' ∨ b = 'B' → RadixMark ['0', b] 2

inductive NumberLiteral : Chars → Int → Prop
  | signed {sign mark ds f radix n} : Sign sign f → RadixMark mark radix → ds ≠ [] →
    Digits radix ds n → n < valueCount 63 → NumberLiteral (sign ++ (mark ++ ds)) (f * n)

-- A number with a sign behind its first character. The last sign belongs to the digits, whose value
-- has 64 bits; the first is applied afterwards and may wrap around.
inductive TwiceSigned : Chars → Int → Prop
  | signed {sign mark second ds f radix g n} : Sign sign f → RadixMark mark radix →
    Sign second g → second ≠ [] → sign ++ mark ≠ [] → ds ≠ [] → Digits radix ds n →
    fitsSigned (g * n) 64 →
    TwiceSigned (sign ++ (mark ++ (second ++ ds))) ((f * (g * n)).bmod (valueCount 64))

-- Whether a text has no sign in it.
structure Unsigned (cs : Chars) : Prop where
  plus  : '+' ∉ cs
  minus : '-' ∉ cs

variable {cs ds sign mark : Chars} {radix n : Nat} {f i u v : Int}

section Signs

theorem Unsigned.append (h : Unsigned cs) (h' : Unsigned ds) : Unsigned (cs ++ ds) where
  plus  := by simp [h.plus, h'.plus]
  minus := by simp [h.minus, h'.minus]

theorem Unsigned.head? (h : Unsigned cs) : cs.head? ≠ some '+' ∧ cs.head? ≠ some '-' :=
  ⟨fun he => h.plus (List.mem_of_mem_head? he), fun he => h.minus (List.mem_of_mem_head? he)⟩

theorem Unsigned.of_digits (h : Digits radix cs n) (hr : radix ≤ 16) : Unsigned cs where
  plus  := h.not_mem (digit?_plus radix) hr
  minus := h.not_mem (digit?_minus radix) hr

theorem RadixMark.le (h : RadixMark mark radix) : radix ≤ 16 := by
  cases h <;> decide

theorem RadixMark.unsigned (h : RadixMark mark radix) : Unsigned mark := by
  cases h
  case decimal => exact ⟨nofun, nofun⟩
  case hexadecimal hx => rcases hx with rfl | rfl <;> exact ⟨by decide, by decide⟩
  case binary hb => rcases hb with rfl | rfl <;> exact ⟨by decide, by decide⟩

-- What has no sign in it is no sign, except for the one that is left out.
theorem eq_nil_of_sign (h : Sign sign f) (hu : Unsigned sign) : sign = [] ∧ f = 1 := by
  cases h
  case none => exact ⟨rfl, rfl⟩
  case plus => exact absurd List.mem_cons_self hu.plus
  case minus => exact absurd List.mem_cons_self hu.minus

theorem NumberLiteral.unsigned_tail (h : NumberLiteral cs v) : Unsigned cs.tail := by
  cases h
  case signed hs hm hn hd _ =>
    have hrest := hm.unsigned.append (.of_digits hd hm.le)
    cases hs
    case none => exact ⟨fun h => hrest.plus (List.mem_of_mem_tail h),
      fun h => hrest.minus (List.mem_of_mem_tail h)⟩
    case plus | minus => exact hrest

theorem TwiceSigned.not_unsigned_tail (h : TwiceSigned cs v) : ¬Unsigned cs.tail := by
  cases h
  case signed sign mark second ds f radix g n _ _ hs hn hne _ _ _ =>
    intro hu
    have hsub : second ⊆ (sign ++ (mark ++ (second ++ ds))).tail := by
      rw [← List.append_assoc, List.tail_append_of_ne_nil hne]
      grind
    exact hn (eq_nil_of_sign hs ⟨fun h => hu.plus (hsub h), fun h => hu.minus (hsub h)⟩).left

end Signs

section Reading

theorem integer?_mark {x : Char} (hx : digit? 10 x = none) :
    integer? 10 ('0' :: x :: ds) = none := by
  rw [Option.eq_none_iff_forall_ne_some]
  intro i h
  obtain ⟨sign, f, ds', n, hs, he, _, hd, _⟩ := (integer?_eq_some_iff (by decide)).mp h
  cases hs
  case none =>
    cases he
    exact hd.not_mem hx (by decide) (by simp)
  case plus | minus => cases he

-- A mark of the radix is never taken for digits.
theorem unsigned_eq_some_iff :
    number?.unsigned cs = some i ↔ ∃ mark radix rest, RadixMark mark radix ∧ cs = mark ++ rest ∧
      integer? radix rest = some i := by
  constructor
  case mp =>
    intro h
    unfold number?.unsigned at h
    split at h
    case h_1 => exact ⟨_, _, _, .hexadecimal (.inl rfl), rfl, h⟩
    case h_2 => exact ⟨_, _, _, .hexadecimal (.inr rfl), rfl, h⟩
    case h_3 => exact ⟨_, _, _, .binary (.inl rfl), rfl, h⟩
    case h_4 => exact ⟨_, _, _, .binary (.inr rfl), rfl, h⟩
    case h_5 => exact ⟨_, _, _, .decimal, rfl, h⟩
  case mpr =>
    rintro ⟨mark, radix, rest, hm, rfl, h⟩
    cases hm
    case hexadecimal hx => rcases hx with rfl | rfl <;> exact h
    case binary hb => rcases hb with rfl | rfl <;> exact h
    case decimal =>
      rw [List.nil_append]
      unfold number?.unsigned
      split
      case h_5 => exact h
      all_goals
        rw [integer?_mark (by decide)] at h
        cases h

theorem fitsSigned_of_unsigned (h : number?.unsigned cs = some u) : fitsSigned u 64 := by
  obtain ⟨_, _, _, hm, _, hi⟩ := unsigned_eq_some_iff.mp h
  obtain ⟨_, _, _, _, _, _, _, _, _, hfit⟩ := (integer?_eq_some_iff hm.le).mp hi
  exact hfit

theorem bmod_of_fitsSigned (h : fitsSigned u 64) : u.bmod (valueCount 64) = u := by
  have ⟨hl, hu⟩ := fitsSigned_iff.mp h
  have hcount : valueCount 64 = 0x10000000000000000 := rfl
  refine Int.bmod_eq_of_le ?_ ?_
  all_goals omega

-- The negative of the least number is that number again.
theorem bmod_neg_of_fitsSigned (h : fitsSigned u 64) :
    (-u).bmod (valueCount 64) = if u = -(valueCount 63 : Int) then u else -u := by
  have ⟨hl, hu⟩ := fitsSigned_iff.mp h
  have hcount : valueCount 63 = 0x8000000000000000 := rfl
  split
  case isTrue he =>
    rw [he, hcount]
    decide
  case isFalse hne => exact bmod_of_fitsSigned (fitsSigned_iff.mpr (by omega))

theorem number?_minus (h : bare cs = '-' :: ds) :
    number? cs = some v ↔
      ∃ u, number?.unsigned ds = some u ∧ v = (-u).bmod (valueCount 64) := by
  unfold bare at h
  simp only [number?, h, Option.map_eq_some_iff]
  refine exists_congr fun u => and_congr_right fun hu => ?_
  rw [bmod_neg_of_fitsSigned (fitsSigned_of_unsigned hu), eq_comm]

theorem number?_plus (h : bare cs = '+' :: ds) : number? cs = number?.unsigned ds := by
  unfold bare at h
  simp only [number?, h]

theorem number?_of_head (hp : (bare cs).head? ≠ some '+') (hm : (bare cs).head? ≠ some '-') :
    number? cs = number?.unsigned (bare cs) := by
  unfold bare at *
  simp only [number?]
  split
  case h_1 h => exact absurd (congrArg List.head? h) hm
  case h_2 h => exact absurd (congrArg List.head? h) hp
  case h_3 => rfl

theorem unsigned_eq_some_iff_bmod : number?.unsigned cs = some v ↔
    ∃ u, number?.unsigned cs = some u ∧ v = (1 * u).bmod (valueCount 64) := by
  constructor
  case mp =>
    intro h
    exact ⟨v, h, by rw [one_mul, bmod_of_fitsSigned (fitsSigned_of_unsigned h)]⟩
  case mpr =>
    rintro ⟨u, h, rfl⟩
    rwa [one_mul, bmod_of_fitsSigned (fitsSigned_of_unsigned h)]

-- The sign in front is split off, and is applied to what the rest is read as.
theorem number?_eq_some_iff_unsigned :
    number? cs = some v ↔ ∃ sign f rest u, Sign sign f ∧ bare cs = sign ++ rest ∧
      (sign = [] → rest.head? ≠ some '+' ∧ rest.head? ≠ some '-') ∧
      number?.unsigned rest = some u ∧ v = (f * u).bmod (valueCount 64) := by
  constructor
  case mp =>
    intro h
    by_cases hm : (bare cs).head? = some '-'
    case pos =>
      obtain ⟨rest, hrest⟩ := List.head?_eq_some_iff.mp hm
      obtain ⟨u, hu, rfl⟩ := (number?_minus hrest).mp h
      exact ⟨_, _, rest, u, .minus, hrest, nofun, hu, by rw [neg_one_mul]⟩
    case neg =>
      by_cases hp : (bare cs).head? = some '+'
      case pos =>
        obtain ⟨rest, hrest⟩ := List.head?_eq_some_iff.mp hp
        rw [number?_plus hrest] at h
        obtain ⟨u, hu⟩ := unsigned_eq_some_iff_bmod.mp h
        exact ⟨_, _, rest, u, .plus, hrest, nofun, hu⟩
      case neg =>
        rw [number?_of_head hp hm] at h
        obtain ⟨u, hu⟩ := unsigned_eq_some_iff_bmod.mp h
        exact ⟨_, _, bare cs, u, .none, rfl, fun _ => ⟨hp, hm⟩, hu⟩
  case mpr =>
    rintro ⟨sign, f, rest, u, hs, hrest, hhead, hu, hv⟩
    cases hs
    case none =>
      have ⟨hp, hm⟩ := hhead rfl
      rw [number?_of_head (hrest ▸ hp) (hrest ▸ hm), hrest]
      exact unsigned_eq_some_iff_bmod.mpr ⟨u, hu, hv⟩
    case plus =>
      rw [number?_plus hrest]
      exact unsigned_eq_some_iff_bmod.mpr ⟨u, hu, hv⟩
    case minus => exact (number?_minus hrest).mpr ⟨u, hu, by rw [hv, neg_one_mul]⟩

theorem lt_of_fitsSigned (h : fitsSigned (n : Int) 64) : n < valueCount 63 := by
  have hcount : valueCount 63 = 2 ^ (64 - 1) := rfl
  have := fitsSigned_iff.mp h
  omega

-- One sign never carries a number of 63 bits out of its range.
theorem fitsSigned_of_sign (hs : Sign sign f) (hn : n < valueCount 63) :
    fitsSigned (f * n) 64 := by
  have hcount : valueCount 63 = 2 ^ (64 - 1) := rfl
  refine fitsSigned_iff.mpr ?_
  cases hs
  all_goals omega

theorem unsigned_mark (hm : RadixMark mark radix) (hs : Sign sign f) (hn : ds ≠ [])
    (hd : Digits radix ds n) (hfit : fitsSigned (f * n) 64) :
    number?.unsigned (mark ++ (sign ++ ds)) = some (f * n) :=
  unsigned_eq_some_iff.mpr ⟨mark, radix, sign ++ ds, hm, rfl,
    (integer?_eq_some_iff hm.le).mpr ⟨sign, f, ds, n, hs, rfl, hn, hd, rfl, hfit⟩⟩

theorem number?_of_literal (h : NumberLiteral (bare cs) v) : number? cs = some v := by
  rw [number?_eq_some_iff_unsigned]
  generalize bare cs = t at *
  cases h
  case signed sign mark ds f radix n hs hm hn hd hlt =>
    have hhead := (hm.unsigned.append (.of_digits hd hm.le)).head?
    have hread := unsigned_mark hm .none hn hd (fitsSigned_of_sign .none hlt)
    rw [one_mul] at hread
    refine ⟨sign, f, mark ++ ds, n, hs, rfl, fun _ => hhead, hread, ?_⟩
    rw [bmod_of_fitsSigned (fitsSigned_of_sign hs hlt)]

theorem number?_of_twiceSigned (h : TwiceSigned (bare cs) v) : number? cs = some v := by
  rw [number?_eq_some_iff_unsigned]
  generalize bare cs = t at *
  cases h
  case signed sign mark second ds f radix g n hs hm hs' hn hne hnd hd hfit =>
    refine ⟨sign, f, mark ++ (second ++ ds), g * n, hs, rfl, fun h => ?_,
      unsigned_mark hm hs' hnd hd hfit, rfl⟩
    have hmark : mark ≠ [] := by simpa [h] using hne
    rw [List.head?_append_of_ne_nil _ hmark]
    exact hm.unsigned.head?

theorem number?_eq_some_iff :
    number? cs = some v ↔ NumberLiteral (bare cs) v ∨ TwiceSigned (bare cs) v := by
  constructor
  case mpr => exact fun h => h.elim number?_of_literal number?_of_twiceSigned
  case mp =>
    intro h
    obtain ⟨sign, f, _, u, hs, hb, hhead, hu, rfl⟩ := number?_eq_some_iff_unsigned.mp h
    obtain ⟨mark, radix, _, hm, rfl, hi⟩ := unsigned_eq_some_iff.mp hu
    obtain ⟨second, g, ds, n, hs', rfl, hnd, hd, rfl, hfit⟩ := (integer?_eq_some_iff hm.le).mp hi
    rw [hb]
    by_cases hn : second = []
    case pos =>
      obtain ⟨-, rfl⟩ := eq_nil_of_sign hs' (hn ▸ ⟨nofun, nofun⟩)
      subst hn
      rw [one_mul] at hfit ⊢
      have hlt := lt_of_fitsSigned hfit
      rw [bmod_of_fitsSigned (fitsSigned_of_sign hs hlt)]
      exact .inl (.signed hs hm hnd hd hlt)
    case neg =>
      refine .inr (.signed hs hm hs' hn (fun hnil => ?_) hnd hd hfit)
      obtain ⟨rfl, rfl⟩ := List.append_eq_nil_iff.mp hnil
      have ⟨hp, hmi⟩ := hhead rfl
      cases hs'
      case none => exact hn rfl
      case plus => exact hp rfl
      case minus => exact hmi rfl

theorem exists_natCast_of_unsigned (hun : Unsigned cs) (h : number?.unsigned cs = some u) :
    ∃ n : Nat, u = n ∧ n < valueCount 63 := by
  obtain ⟨mark, radix, _, hm, rfl, hi⟩ := unsigned_eq_some_iff.mp h
  obtain ⟨second, g, ds, n, hs, rfl, -, -, rfl, hfit⟩ := (integer?_eq_some_iff hm.le).mp hi
  have hsub : second ⊆ mark ++ (second ++ ds) := by grind
  obtain ⟨-, rfl⟩ := eq_nil_of_sign hs ⟨fun h => hun.plus (hsub h), fun h => hun.minus (hsub h)⟩
  rw [one_mul] at hfit ⊢
  exact ⟨n, rfl, lt_of_fitsSigned hfit⟩

end Reading

-- A text whose first character alone may be a sign is read exactly if it is a literal, and then the
-- sign never makes the number wrap. With a second sign in it a text may be read as well.
theorem number?_grammar (cs : Chars) :
    (∀ v, number? cs = some v ↔ NumberLiteral (bare cs) v ∨ TwiceSigned (bare cs) v) ∧
    (Unsigned (bare cs).tail →
      (∀ v, number? cs = some v ↔ NumberLiteral (bare cs) v) ∧
      ∀ rest u, bare cs = '-' :: rest → number?.unsigned rest = some u → fitsSigned (-u) 64) := by
  refine ⟨fun v => number?_eq_some_iff, fun hun => ⟨fun v => ?_, fun rest u hb h => ?_⟩⟩
  case refine_1 =>
    rw [number?_eq_some_iff]
    exact or_iff_left fun h => h.not_unsigned_tail hun
  case refine_2 =>
    rw [hb] at hun
    obtain ⟨n, rfl, hn⟩ := exists_natCast_of_unsigned hun h
    rw [← neg_one_mul]
    exact fitsSigned_of_sign .minus hn

-- Underscores are no part of a literal.
theorem number?_hexadecimal : number? "-0x1_F".toList = some (-31) := by
  have hbare : bare "-0x1_F".toList = ['-'] ++ (['0', 'x'] ++ ['1', 'F']) := by decide
  have hone : IsDigit 16 '1' 1 := ⟨by decide, by decide⟩
  have hfifteen : IsDigit 16 'F' 15 := ⟨by decide, by decide⟩
  have hdigits : Digits 16 ['1', 'F'] 31 := .cons hone (.cons hfifteen .nil)
  have hrest := (number?_grammar "-0x1_F".toList).right ⟨by decide, by decide⟩
  have hliteral : NumberLiteral (['-'] ++ (['0', 'x'] ++ ['1', 'F'])) (-1 * (31 : Nat)) :=
    .signed .minus (.hexadecimal (.inl rfl)) nofun hdigits (by decide)
  exact (hrest.left (-31)).mpr (hbare ▸ hliteral)

-- A second sign is let pass, also behind the mark of the radix, and undoes the first. The least
-- number has no negative, so there the first is without effect.
theorem number?_second_sign :
    number? "--5".toList = some 5 ∧ (∀ v, ¬NumberLiteral (bare "--5".toList) v) ∧
    number? "0x-5".toList = some (-5) ∧
    number? "--9223372036854775808".toList = some (-9223372036854775808) :=
  ⟨by decide, fun _ h => h.unsigned_tail.minus (by decide), by decide, by decide⟩

end RV32IM.Source
