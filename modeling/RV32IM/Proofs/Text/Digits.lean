import RV32IM.Proofs.Text.Numeral

-- What digits stand for. A text is read as a number exactly if it is digits of the radix in a row,
-- after a sign where one is allowed, and the number is within the limit.

namespace RV32IM.Numeral

-- Whether a character is a digit of a radix, in either case, and which one.
structure IsDigit (radix : Nat) (c : Char) (d : Nat) : Prop where
  lt    : d < radix
  lower : c.toLower = d.digitChar

-- Digits in a row, the highest first, and the number that they stand for.
inductive Digits (radix : Nat) : List Char → Nat → Prop
  | nil : Digits radix [] 0
  | cons {c d cs n} : IsDigit radix c d → Digits radix cs n →
    Digits radix (c :: cs) (d * radix ^ cs.length + n)

-- A sign that may be missing, and the factor that it stands for.
inductive Sign : List Char → Int → Prop
  | none : Sign [] 1
  | plus : Sign ['+'] 1
  | minus : Sign ['-'] (-1)

variable {c x : Char} {cs ds : List Char} {radix limit v d n : Nat}

section Digit

theorem toNat_lt_of_toLower (hd : d < 16) (h : c.toLower = d.digitChar) : c.toNat < 128 := by
  by_cases hu : c.isUpper
  case pos =>
    simp only [Char.isUpper, decide_eq_true_eq, ge_iff_le, UInt32.le_iff_toNat_le] at hu
    exact Nat.lt_of_le_of_lt hu.right (by decide)
  case neg =>
    have hall : ∀ d < 16, d.digitChar.toNat < 128 := by decide
    rw [show c.toLower = c from dif_neg fun h => hu (decide_eq_true h)] at h
    rw [h]
    exact hall d hd

theorem toNat_lt_of_digit? (h : digit? radix c = some d) : c.toNat < 128 := by
  have hle {x : Char} (hx : x.toNat < 128) (h : c ≤ x) : c.toNat < 128 :=
    Nat.lt_of_le_of_lt (UInt32.le_iff_toNat_le.mp h) hx
  by_contra hc
  have h9 : ¬c ≤ '9' := fun h => hc (hle (by decide) h)
  have hz : ¬c ≤ 'z' := fun h => hc (hle (by decide) h)
  have hZ : ¬c ≤ 'Z' := fun h => hc (hle (by decide) h)
  simp [digit?, h9, hz, hZ] at h

-- The digits of a radix up to sixteen are those digits of the radix sixteen that are below it.
theorem digit?_eq_some_iff_sixteen (hr : radix ≤ 16) :
    digit? radix c = some d ↔ digit? 16 c = some d ∧ d < radix := by
  unfold digit?
  grind

theorem digit?_eq_some_iff (hr : radix ≤ 16) : digit? radix c = some d ↔ IsDigit radix c d := by
  have hall : ∀ n < 128, ∀ d < 16,
      digit? 16 (Char.ofNat n) = some d ↔ (Char.ofNat n).toLower = d.digitChar := by
    decide +kernel
  have hascii (hc : c.toNat < 128) (hd : d < radix) :
      digit? 16 c = some d ↔ c.toLower = d.digitChar := by
    have := hall c.toNat hc d (by omega)
    rwa [Char.ofNat_toNat] at this
  rw [digit?_eq_some_iff_sixteen hr]
  constructor
  case mp => exact fun ⟨h, hd⟩ => ⟨hd, (hascii (toNat_lt_of_digit? h) hd).mp h⟩
  case mpr =>
    exact fun ⟨hd, h⟩ => ⟨(hascii (toNat_lt_of_toLower (by omega) h) hd).mpr h, hd⟩

-- Signs are not digits.
theorem digit?_plus (radix : Nat) : digit? radix '+' = none := by
  simp [digit?]

theorem digit?_minus (radix : Nat) : digit? radix '-' = none := by
  simp [digit?]

theorem IsDigit.ne (h : IsDigit radix c d) (hx : digit? radix x = none) (hr : radix ≤ 16) :
    c ≠ x := by
  rintro rfl
  rw [(digit?_eq_some_iff hr).mpr h] at hx
  cases hx

theorem isDigit_digitChar (h : d < 16) : IsDigit 16 d.digitChar d := by
  have hall : ∀ d < 16, d.digitChar.toLower = d.digitChar := by decide
  exact ⟨h, hall d h⟩

end Digit

section Digits

theorem digits_cons_eq_ok_iff (hr : radix ≤ 16) :
    digits radix limit v (c :: cs) = .ok n ↔ ∃ d, IsDigit radix c d ∧ v * radix + d < limit ∧
      digits radix limit (v * radix + d) cs = .ok n := by
  cases hc : digit? radix c
  case none =>
    have hnot d : ¬IsDigit radix c d := by simp [← digit?_eq_some_iff hr, hc]
    simp [digits, hc, hnot]
  case some d =>
    have hd {d'} : IsDigit radix c d' ↔ d = d' := by simp [← digit?_eq_some_iff hr, hc]
    simp only [digits, hc, hd, exists_eq_left']
    split
    case isTrue hlt => simp [hlt]
    case isFalse hge => simp [hge]

-- Numbers only grow as digits are read on, so a limit on the last is one on all of them.
theorem digits_eq_ok_iff (hr : radix ≤ 16) (hv : v < limit) :
    digits radix limit v cs = .ok n ↔
      n < limit ∧ ∃ m, Digits radix cs m ∧ n = v * radix ^ cs.length + m := by
  induction cs generalizing v
  case nil =>
    constructor
    case mp =>
      intro h
      cases h
      exact ⟨hv, 0, .nil, by simp⟩
    case mpr =>
      rintro ⟨_, m, ⟨⟩, rfl⟩
      simp [digits]
  case cons c cs ih =>
    have hvalue d m : (v * radix + d) * radix ^ cs.length + m =
        v * radix ^ (c :: cs).length + (d * radix ^ cs.length + m) := by
      rw [List.length_cons, pow_succ]
      ring
    rw [digits_cons_eq_ok_iff hr]
    constructor
    case mp =>
      rintro ⟨d, hd, hlt, h⟩
      obtain ⟨hn, m, hm, rfl⟩ := (ih hlt).mp h
      exact ⟨hn, _, .cons hd hm, hvalue d m⟩
    case mpr =>
      rintro ⟨hn, _, hds, rfl⟩
      cases hds
      case cons d m hd hm =>
        have hpow : 0 < radix ^ cs.length := Nat.pow_pos (Nat.zero_lt_of_lt hd.lt)
        have hle := Nat.le_mul_of_pos_right (v * radix + d) hpow
        have hlt : v * radix + d < limit := by
          rw [← hvalue] at hn
          omega
        exact ⟨d, hd, hlt, (ih hlt).mpr ⟨hn, m, hm, (hvalue d m).symm⟩⟩

theorem digits_zero_eq_ok_iff (hr : radix ≤ 16) (hl : 0 < limit) :
    digits radix limit 0 cs = .ok n ↔ Digits radix cs n ∧ n < limit := by
  simp [digits_eq_ok_iff hr hl, and_comm]

theorem Digits.not_mem (h : Digits radix cs n) (hx : digit? radix x = none) (hr : radix ≤ 16) :
    x ∉ cs := by
  induction h
  case nil => nofun
  case cons hd _ ih => exact List.not_mem_cons_of_ne_of_not_mem (hd.ne hx hr).symm ih

theorem natural_plus (hn : ds ≠ []) :
    natural radix limit ('+' :: ds) = digits radix limit 0 ds := by
  unfold natural
  split <;> simp_all

theorem natural_eq_ok_iff (hr : radix ≤ 16) (hl : 0 < limit) :
    natural radix limit cs = .ok n ↔
      ∃ ds, (cs = ds ∨ cs = '+' :: ds) ∧ ds ≠ [] ∧ Digits radix ds n ∧ n < limit := by
  constructor
  case mp =>
    intro h
    unfold natural at h
    split at h
    case h_1 | h_2 => cases h
    case h_3 ds hds =>
      exact ⟨ds, .inr rfl, by simpa using hds, (digits_zero_eq_ok_iff hr hl).mp h⟩
    case h_4 hn _ _ => exact ⟨cs, .inl rfl, hn, (digits_zero_eq_ok_iff hr hl).mp h⟩
  case mpr =>
    rintro ⟨ds, rfl | rfl, hn, hd⟩
    case inl =>
      have hp h := hd.left.not_mem (digit?_plus radix) hr (List.mem_of_mem_head? h)
      rw [natural_eq_digits hn hp]
      exact (digits_zero_eq_ok_iff hr hl).mpr hd
    case inr =>
      rw [natural_plus hn]
      exact (digits_zero_eq_ok_iff hr hl).mpr hd

theorem toOption_map_eq_some_iff {ε α β : Type} {x : Except ε α} {f : α → β} {b : β} :
    x.toOption.map f = some b ↔ ∃ a, x = .ok a ∧ f a = b := by
  cases x <;> simp [Except.toOption]

theorem integer?_minus (hn : ds ≠ []) {i : Int} :
    integer? radix ('-' :: ds) = some i ↔
      ∃ n, digits radix (valueCount 63 + 1) 0 ds = .ok n ∧ -(n : Int) = i := by
  rw [← toOption_map_eq_some_iff]
  unfold integer?
  split <;> simp_all

theorem integer?_of_ne_minus (h : cs.head? ≠ some '-') {i : Int} :
    integer? radix cs = some i ↔
      ∃ n, natural radix (valueCount 63) cs = .ok n ∧ (n : Int) = i := by
  rw [← toOption_map_eq_some_iff]
  unfold integer?
  split <;> simp_all

-- A number of 64 bits may have one sign, and the least of them has one.
theorem integer?_eq_some_iff (hr : radix ≤ 16) {i : Int} :
    integer? radix cs = some i ↔ ∃ sign f ds n, Sign sign f ∧ cs = sign ++ ds ∧ ds ≠ [] ∧
      Digits radix ds n ∧ i = f * n ∧ fitsSigned i 64 := by
  have hfits {i : Int} : fitsSigned i 64 ↔ -(valueCount 63 : Int) ≤ i ∧ i < valueCount 63 := by
    simp [fitsSigned]
  have hpos : 0 < valueCount 63 := by decide
  constructor
  case mp =>
    intro h
    by_cases hm : cs.head? = some '-'
    case pos =>
      obtain ⟨ds, rfl⟩ := List.head?_eq_some_iff.mp hm
      have hn : ds ≠ [] := by
        rintro rfl
        cases h
      obtain ⟨n, hread, rfl⟩ := (integer?_minus hn).mp h
      have ⟨hd, hlt⟩ := (digits_zero_eq_ok_iff hr (Nat.succ_pos _)).mp hread
      exact ⟨_, _, ds, n, .minus, rfl, hn, hd, by simp, hfits.mpr (by omega)⟩
    case neg =>
      obtain ⟨n, hread, rfl⟩ := (integer?_of_ne_minus hm).mp h
      obtain ⟨ds, rfl | rfl, hn, hd, hlt⟩ := (natural_eq_ok_iff hr hpos).mp hread
      case inl => exact ⟨_, _, cs, n, .none, rfl, hn, hd, by simp, hfits.mpr (by omega)⟩
      case inr => exact ⟨_, _, ds, n, .plus, rfl, hn, hd, by simp, hfits.mpr (by omega)⟩
  case mpr =>
    rintro ⟨sign, f, ds, n, hs, rfl, hn, hd, rfl, hfit⟩
    rw [hfits] at hfit
    cases hs
    case minus =>
      have hlt : n < valueCount 63 + 1 := by omega
      exact (integer?_minus hn).mpr ⟨n, (digits_zero_eq_ok_iff hr (Nat.succ_pos _)).mpr ⟨hd, hlt⟩,
        by simp⟩
    case none =>
      have hlt : n < valueCount 63 := by omega
      have hm h := hd.not_mem (digit?_minus radix) hr (List.mem_of_mem_head? h)
      exact (integer?_of_ne_minus hm).mpr
        ⟨n, (natural_eq_ok_iff hr hpos).mpr ⟨ds, .inl rfl, hn, hd, hlt⟩, by simp⟩
    case plus =>
      have hlt : n < valueCount 63 := by omega
      exact (integer?_of_ne_minus (by simp)).mpr
        ⟨n, (natural_eq_ok_iff hr hpos).mpr ⟨ds, .inr rfl, hn, hd, hlt⟩, by simp⟩

end Digits

end RV32IM.Numeral
