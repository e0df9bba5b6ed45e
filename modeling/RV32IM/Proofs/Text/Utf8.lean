import Mathlib
import RV32IM.Text.Utf8

-- UTF-8 is decoded as it is encoded: what can be decoded is the encoding of the characters that
-- decoding gives.

namespace RV32IM.Utf8

-- How bytes spell a character, by how many there are.
inductive Spells : Char → List Byte → Prop
  | one {a : Byte} (ha : a.toNat < 0x80) : Spells (.ofNat a.toNat) [a]
  | two {a b : Byte} (ha : 0xC2 ≤ a.toNat) (ha' : a.toNat < 0xE0) (hb : isTail b.toNat) :
    Spells (.ofNat ((a.toNat - 0xC0) * 64 + (b.toNat - 0x80))) [a, b]
  | three {a b c : Byte} (ha : 0xE0 ≤ a.toNat) (ha' : a.toNat < 0xF0)
      (hb : isSecondOfThree a.toNat b.toNat) (hc : isTail c.toNat) :
    Spells (.ofNat ((a.toNat - 0xE0) * 4096 + (b.toNat - 0x80) * 64 + (c.toNat - 0x80))) [a, b, c]
  | four {a b c d : Byte} (ha : 0xF0 ≤ a.toNat) (ha' : a.toNat < 0xF5)
      (hb : isSecondOfFour a.toNat b.toNat) (hc : isTail c.toNat) (hd : isTail d.toNat) :
    Spells (.ofNat ((a.toNat - 0xF0) * 262144 + (b.toNat - 0x80) * 4096 + (c.toNat - 0x80) * 64 +
      (d.toNat - 0x80))) [a, b, c, d]

variable {bs rest : List Byte} {c : Char} {cs acc : List Char} {n i : Nat} {a b : Nat}

theorem isTail_iff : isTail n ↔ 0x80 ≤ n ∧ n < 0xC0 := by
  simp [isTail]

theorem isSecondOfThree_iff :
    isSecondOfThree a b ↔ isTail b ∧ (a = 0xE0 → 0xA0 ≤ b) ∧ (a = 0xED → b < 0xA0) := by
  simp [isSecondOfThree, and_assoc, imp_iff_not_or]

theorem isSecondOfFour_iff :
    isSecondOfFour a b ↔ isTail b ∧ (a = 0xF0 → 0x90 ≤ b) ∧ (a = 0xF4 → b < 0x90) := by
  simp [isSecondOfFour, and_assoc, imp_iff_not_or]

theorem toNat_charOfNat (h : n.isValidChar) : (Char.ofNat n).toNat = n := by
  rw [Char.ofNat, dif_pos h]
  exact UInt32.toNat_ofNatLT

theorem toNat_byteOfNat (h : n < 256) : (BitVec.ofNat 8 n).toNat = n :=
  Nat.mod_eq_of_lt h

theorem encodeChar_ofNat (h : n.isValidChar) :
    encodeChar (.ofNat n) =
      if n ≤ 0x7F then [.ofNat 8 n]
      else if n ≤ 0x7FF then [.ofNat 8 (n / 64 % 32 + 0xC0), .ofNat 8 (n % 64 + 0x80)]
      else if n ≤ 0xFFFF then
        [.ofNat 8 (n / 4096 % 16 + 0xE0), .ofNat 8 (n / 64 % 64 + 0x80), .ofNat 8 (n % 64 + 0x80)]
      else
        [.ofNat 8 (n / 262144 % 8 + 0xF0), .ofNat 8 (n / 4096 % 64 + 0x80),
          .ofNat 8 (n / 64 % 64 + 0x80), .ofNat 8 (n % 64 + 0x80)] := by
  have hn : (Char.ofNat n).val.toNat = n := toNat_charOfNat h
  simp only [encodeChar, String.utf8EncodeChar, hn]
  split_ifs <;> rfl

theorem spells_encodeChar (c : Char) : Spells c (encodeChar c) := by
  have hvalid : c.toNat.isValidChar := c.valid
  rw [← Char.ofNat_toNat c, encodeChar_ofNat hvalid]
  generalize c.toNat = n at hvalid
  unfold Nat.isValidChar at hvalid
  split_ifs
  case pos =>
    have ha := toNat_byteOfNat (n := n) (by omega)
    have h : Spells (.ofNat (BitVec.ofNat 8 n).toNat) [.ofNat 8 n] := .one (by omega)
    rwa [ha] at h
  case pos =>
    have ha := toNat_byteOfNat (n := n / 64 % 32 + 0xC0) (by omega)
    have hb := toNat_byteOfNat (n := n % 64 + 0x80) (by omega)
    convert Spells.two (a := .ofNat 8 (n / 64 % 32 + 0xC0)) (b := .ofNat 8 (n % 64 + 0x80))
      (by omega) (by omega) (isTail_iff.mpr (by omega)) using 2
    omega
  case pos =>
    have ha := toNat_byteOfNat (n := n / 4096 % 16 + 0xE0) (by omega)
    have hb := toNat_byteOfNat (n := n / 64 % 64 + 0x80) (by omega)
    have hc := toNat_byteOfNat (n := n % 64 + 0x80) (by omega)
    convert Spells.three (a := .ofNat 8 (n / 4096 % 16 + 0xE0))
      (b := .ofNat 8 (n / 64 % 64 + 0x80)) (c := .ofNat 8 (n % 64 + 0x80)) (by omega) (by omega)
      (isSecondOfThree_iff.mpr ⟨isTail_iff.mpr (by omega), by omega, by omega⟩)
      (isTail_iff.mpr (by omega)) using 2
    omega
  case neg =>
    have ha := toNat_byteOfNat (n := n / 262144 % 8 + 0xF0) (by omega)
    have hb := toNat_byteOfNat (n := n / 4096 % 64 + 0x80) (by omega)
    have hc := toNat_byteOfNat (n := n / 64 % 64 + 0x80) (by omega)
    have hd := toNat_byteOfNat (n := n % 64 + 0x80) (by omega)
    convert Spells.four (a := .ofNat 8 (n / 262144 % 8 + 0xF0))
      (b := .ofNat 8 (n / 4096 % 64 + 0x80)) (c := .ofNat 8 (n / 64 % 64 + 0x80))
      (d := .ofNat 8 (n % 64 + 0x80)) (by omega) (by omega)
      (isSecondOfFour_iff.mpr ⟨isTail_iff.mpr (by omega), by omega, by omega⟩)
      (isTail_iff.mpr (by omega)) (isTail_iff.mpr (by omega)) using 2
    omega

namespace Spells

theorem encodeChar_eq (h : Spells c bs) : encodeChar c = bs := by
  cases h
  case one a ha =>
    rw [encodeChar_ofNat (.inl (by omega)), if_pos (by omega)]
    simp
  case two a b ha ha' hb =>
    rw [isTail_iff] at hb
    rw [encodeChar_ofNat (.inl (by omega)), if_neg (by omega), if_pos (by omega)]
    simp only [List.cons.injEq, ← BitVec.toNat_inj, BitVec.toNat_ofNat, and_true]
    omega
  case three a b c ha ha' hb hc =>
    rw [isSecondOfThree_iff, isTail_iff] at hb
    rw [isTail_iff] at hc
    -- The second byte keeps the number away from the halves of surrogate pairs.
    have hv : Nat.isValidChar
        ((a.toNat - 0xE0) * 4096 + (b.toNat - 0x80) * 64 + (c.toNat - 0x80)) := by
      unfold Nat.isValidChar
      omega
    rw [encodeChar_ofNat hv, if_neg (by omega), if_neg (by omega), if_pos (by omega)]
    simp only [List.cons.injEq, ← BitVec.toNat_inj, BitVec.toNat_ofNat, and_true]
    omega
  case four a b c d ha ha' hb hc hd =>
    rw [isSecondOfFour_iff, isTail_iff] at hb
    rw [isTail_iff] at hc hd
    rw [encodeChar_ofNat (.inr (by omega)), if_neg (by omega), if_neg (by omega),
      if_neg (by omega)]
    simp only [List.cons.injEq, ← BitVec.toNat_inj, BitVec.toNat_ofNat, and_true]
    omega

theorem decodeFrom_append (h : Spells c bs) (i : Nat) (acc : List Char) (rest : List Byte) :
    decodeFrom i acc (bs ++ rest) = decodeFrom (i + bs.length) (c :: acc) rest := by
  cases h
  case one a ha =>
    rw [List.singleton_append, decodeFrom.eq_def]
    simp [ha]
  case two a b ha ha' hb =>
    have h₁ : ¬a.toNat < 0x80 := by omega
    have h₂ : ¬0xF5 ≤ a.toNat := by omega
    simp [decodeFrom, h₁, h₂, ha, ha', hb]
  case three a b c ha ha' hb hc =>
    have h₁ : ¬a.toNat < 0x80 := by omega
    have h₂ : ¬0xF5 ≤ a.toNat := by omega
    have h₃ : ¬a.toNat < 0xC2 := by omega
    have h₄ : ¬a.toNat < 0xE0 := by omega
    simp [decodeFrom, h₁, h₂, h₃, h₄, ha', hb, hc]
  case four a b c d ha ha' hb hc hd =>
    have h₁ : ¬a.toNat < 0x80 := by omega
    have h₂ : ¬0xF5 ≤ a.toNat := by omega
    have h₃ : ¬a.toNat < 0xC2 := by omega
    have h₄ : ¬a.toNat < 0xE0 := by omega
    have h₅ : ¬a.toNat < 0xF0 := by omega
    simp [decodeFrom, h₁, h₂, h₃, h₄, h₅, hb, hc, hd]

-- What was decoded after a character goes on after what the character was decoded from.
theorem exists_encode_eq (h : Spells c bs)
    (hrest : ∃ ds, cs = (c :: acc).reverse ++ ds ∧ rest = encode ds) :
    ∃ ds, cs = acc.reverse ++ ds ∧ bs ++ rest = encode ds := by
  obtain ⟨ds, hcs, hds⟩ := hrest
  refine ⟨c :: ds, by simpa using hcs, ?_⟩
  rw [encode, List.flatMap_cons, h.encodeChar_eq, hds, encode]

end Spells

theorem decodeFrom_encode (i : Nat) (acc cs : List Char) :
    decodeFrom i acc (encode cs) = .ok (acc.reverse ++ cs) := by
  induction cs generalizing i acc
  case nil => simp [encode, decodeFrom]
  case cons c cs ih =>
    rw [encode, List.flatMap_cons, (spells_encodeChar c).decodeFrom_append, ← encode, ih]
    simp

theorem exists_of_decodeFrom_eq_ok (h : decodeFrom i acc bs = .ok cs) :
    ∃ ds, cs = acc.reverse ++ ds ∧ bs = encode ds := by
  fun_induction decodeFrom i acc bs
  case case1 =>
    cases h
    exact ⟨[], by simp, rfl⟩
  case case2 ha ih => exact (Spells.one ha).exists_encode_eq (ih h)
  case case5 ha _ _ _ ha' hb ih =>
    exact (Spells.two (by grind) ha' hb).exists_encode_eq (ih h)
  case case9 ha ha' hb _ _ _ hc _ ih =>
    exact (Spells.three (by grind) ha' (by simpa using hb) hc).exists_encode_eq (ih h)
  case case15 ha hb _ _ hc _ _ _ hd _ ih =>
    exact (Spells.four (by grind) (by grind) (by simpa using hb) (by simpa using hc)
      hd).exists_encode_eq (ih h)
  all_goals cases h

-- Bytes can be decoded exactly if they encode characters, which are then what decoding gives.
theorem decode_eq_ok_iff : decode bs = .ok cs ↔ bs = encode cs := by
  constructor
  case mp =>
    intro h
    obtain ⟨ds, rfl, hbs⟩ := exists_of_decodeFrom_eq_ok h
    exact hbs
  case mpr =>
    rintro rfl
    exact decodeFrom_encode 0 [] cs

end RV32IM.Utf8
