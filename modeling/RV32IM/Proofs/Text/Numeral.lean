import Mathlib
import RV32IM.Text.Numeral

-- Reading back numbers that were printed. A digit is read with the value that it was printed for,
-- whatever the radix up to sixteen, so digits in a row give back the number.

namespace RV32IM.Numeral

theorem digit?_digitChar {radix d : Nat} (hr : radix ≤ 16) (hd : d < radix) :
    digit? radix d.digitChar = some d := by
  have h : ∀ radix < 17, ∀ d < radix, digit? radix d.digitChar = some d := by decide
  exact h radix (Nat.lt_succ_of_le hr) d hd

-- A property of the sixteen digits is one of every character of a printed number.
theorem forall_mem_toDigits {P : Char → Prop} {radix : Nat} (hr : 1 < radix)
    (h : ∀ d < radix, P d.digitChar) (n : Nat) : ∀ c ∈ Nat.toDigits radix n, P c := by
  induction n using Nat.strongRecOn
  case ind n hi =>
    rw [Nat.toDigits_eq_if hr]
    split
    case isTrue hn => simpa using h n hn
    case isFalse hn =>
      have hlt : n / radix < n := Nat.div_lt_self (by omega) hr
      simp only [List.mem_append, List.mem_singleton]
      rintro c (hc | rfl)
      case inl => exact hi _ hlt c hc
      case inr => exact h _ (Nat.mod_lt _ (by omega))

theorem digits_append (radix limit v : Nat) (cs ds : List Char) :
    digits radix limit v (cs ++ ds) =
      (digits radix limit v cs).bind (digits radix limit · ds) := by
  induction cs generalizing v
  case nil => rfl
  case cons c cs hi =>
    simp only [List.cons_append, digits]
    split
    case h_1 => rfl
    case h_2 =>
      split
      case isTrue  => exact hi _
      case isFalse => rfl

theorem digits_toDigits {radix limit n : Nat} (hr : 1 < radix) (hr' : radix ≤ 16)
    (hn : n < limit) : digits radix limit 0 (Nat.toDigits radix n) = .ok n := by
  have last {v d} (hd : d < radix) (hv : v * radix + d < limit) :
      digits radix limit v [d.digitChar] = .ok (v * radix + d) := by
    simp only [digits, digit?_digitChar hr' hd, if_pos hv]
  induction n using Nat.strongRecOn
  case ind n hi =>
    rw [Nat.toDigits_eq_if hr]
    split
    case isTrue h => simpa using last h (v := 0) (by omega)
    case isFalse h =>
      have hlt : n / radix < n := Nat.div_lt_self (by omega) hr
      have hmod : n / radix * radix + n % radix = n := Nat.div_add_mod' n radix
      rw [digits_append, hi _ hlt (Nat.lt_trans hlt hn)]
      exact (last (Nat.mod_lt _ (by omega)) (by omega)).trans (congrArg _ hmod)

theorem digits_replicate_zero {radix limit : Nat} (hr : 0 < radix) (hl : 0 < limit) (k : Nat)
    (cs : List Char) :
    digits radix limit 0 (List.replicate k '0' ++ cs) = digits radix limit 0 cs := by
  induction k
  case zero => rfl
  case succ k hi =>
    have hz : digit? radix '0' = some 0 := if_pos hr
    rw [List.replicate_succ, List.cons_append, digits, hz]
    simpa [hl] using hi

theorem natural_eq_digits {radix limit : Nat} {cs : List Char} (h : cs ≠ [])
    (hs : cs.head? ≠ some '+') : natural radix limit cs = digits radix limit 0 cs := by
  unfold natural
  split <;> simp_all

theorem integer?_eq_digits {radix : Nat} {cs : List Char} (h : cs ≠ [])
    (hs : cs.head? ≠ some '+') (hs' : cs.head? ≠ some '-') :
    integer? radix cs =
      (digits radix (valueCount 63) 0 cs).toOption.map fun (n : Nat) => (n : Int) := by
  unfold integer?
  split
  case h_1 | h_2 => simp at hs'
  case h_3 => rw [natural_eq_digits h hs]

theorem integer?_toDigits {radix n : Nat} (hr : 1 < radix) (hr' : radix ≤ 16)
    (hn : n < valueCount 63) (k : Nat) :
    integer? radix (List.replicate k '0' ++ Nat.toDigits radix n) = some (n : Int) := by
  have hd : ∀ c ∈ List.replicate k '0' ++ Nat.toDigits radix n, c ≠ '+' ∧ c ≠ '-' := by
    have hs : ∀ d < 16, d.digitChar ≠ '+' ∧ d.digitChar ≠ '-' := by decide
    have hn : ∀ c ∈ Nat.toDigits radix n, c ≠ '+' ∧ c ≠ '-' :=
      forall_mem_toDigits hr (fun d hd => hs d (by omega)) n
    grind
  have hne : List.replicate k '0' ++ Nat.toDigits radix n ≠ [] := by
    simp [Nat.toDigits_ne_nil]
  have hp h := (hd _ (List.mem_of_mem_head? h)).left rfl
  have hm h := (hd _ (List.mem_of_mem_head? h)).right rfl
  rw [integer?_eq_digits hne hp hm, digits_replicate_zero (by omega) (by omega),
    digits_toDigits hr hr' hn]
  rfl

-- The characters of which printed numbers are made.
def isNumeral (c : Char) : Bool :=
  c ∈ "0123456789abcdefx+-".toList

variable (n : Nat) {c : Char}

theorem isNumeral_toDigits_ten : ∀ c ∈ Nat.toDigits 10 n, isNumeral c :=
  forall_mem_toDigits (by decide) (by decide) n

theorem isNumeral_toDigits_sixteen : ∀ c ∈ Nat.toDigits 16 n, isNumeral c :=
  forall_mem_toDigits (by decide) (by decide) n

theorem isNumeral_decimal (v : Int) (hc : c ∈ (decimal v).toList) : isNumeral c := by
  cases v
  case ofNat n => exact isNumeral_toDigits_ten n c (by simpa [decimal] using hc)
  case negSucc n =>
    simp only [decimal, String.toList_ofList, List.mem_cons] at hc
    rcases hc with rfl | hc
    case inl => rfl
    case inr => exact isNumeral_toDigits_ten _ c hc

theorem isNumeral_signed (v : Int) (hc : c ∈ (signed v).toList) : isNumeral c := by
  unfold signed at hc
  split at hc
  case isFalse => exact isNumeral_decimal v hc
  case isTrue =>
    simp only [String.toList_append, List.mem_append] at hc
    rcases hc with hc | hc
    case inl => exact List.all_eq_true.mp (by decide) c hc
    case inr => exact isNumeral_decimal v hc

theorem isNumeral_hex (hc : c ∈ ("0x" ++ hex n).toList) : isNumeral c := by
  simp only [hex, String.toList_append, String.toList_ofList, List.mem_append] at hc
  rcases hc with hc | hc
  case inl => exact List.all_eq_true.mp (by decide) c hc
  case inr => exact isNumeral_toDigits_sixteen n c hc

theorem isNumeral_address (w : BitVec 32) (hc : c ∈ (address w).toList) : isNumeral c := by
  simp only [address, hexPadded, String.toList_append, String.toList_ofList, List.mem_append] at hc
  rcases hc with hc | hc | hc
  case inl => exact List.all_eq_true.mp (by decide) c hc
  case inr.inl => rw [List.eq_of_mem_replicate hc]; rfl
  case inr.inr => exact isNumeral_toDigits_sixteen _ c hc

end RV32IM.Numeral
