import Mathlib
import RV32IM.Layout

-- Reading and writing the fields of a word. A field holds what was last inserted into it and does
-- not see what happens to fields that are disjoint from it, and a layout of disjoint fields behaves
-- like one field that is as wide as its fields together.

namespace RV32IM

namespace Field

variable {f g : Field} {w v : Word}

-- Whether a bit of a word belongs to the field.
def Holds (f : Field) (i : Nat) : Prop :=
  f.pos ≤ i ∧ i < f.pos + f.width

instance (f : Field) (i : Nat) : Decidable (f.Holds i) :=
  inferInstanceAs (Decidable (_ ∧ _))

def Disjoint (f g : Field) : Prop :=
  f.pos + f.width ≤ g.pos ∨ g.pos + g.width ≤ f.pos

instance : DecidableRel Disjoint :=
  fun _ _ => inferInstanceAs (Decidable (_ ∨ _))

theorem Disjoint.symm (h : f.Disjoint g) : g.Disjoint f :=
  Or.symm h

theorem Disjoint.not_holds {i : Nat} (h : f.Disjoint g) (hi : f.Holds i) : ¬g.Holds i := by
  simp only [Disjoint, Holds] at *
  omega

theorem mask_eq (f : Field) : f.mask = BitVec.ofNat 32 (2 ^ f.width - 1) := by
  apply BitVec.eq_of_toNat_eq
  simp [mask, BitVec.toNat_sub, Nat.shiftLeft_eq]
  have := Nat.two_pow_pos f.width
  omega

theorem getLsbD_mask (f : Field) (i : Nat) : f.mask.getLsbD i = decide (i < f.width ∧ i < 32) := by
  rw [mask_eq, BitVec.getLsbD_ofNat, Nat.testBit_two_pow_sub_one]
  grind

theorem toNat_extract_lt (f : Field) (w : Word) : (f.extract w).toNat < 2 ^ f.width := by
  rw [extract, mask_eq, BitVec.toNat_and, BitVec.toNat_ofNat]
  apply Nat.and_lt_two_pow
  have := Nat.two_pow_pos f.width
  have := Nat.mod_le (2 ^ f.width - 1) (2 ^ 32)
  omega

theorem getLsbD_extract (f : Field) (w : Word) (i : Nat) :
    (f.extract w).getLsbD i = (decide (i < f.width) && w.getLsbD (f.pos + i)) := by
  simp only [extract, BitVec.getLsbD_and, BitVec.getLsbD_ushiftRight, getLsbD_mask]
  by_cases hi : i < 32
  case pos => grind
  case neg => simp [BitVec.getLsbD_of_ge w (f.pos + i) (by omega)]

theorem getLsbD_insert (f : Field) (w v : Word) {i : Nat} (hi : i < 32) :
    (f.insert w v).getLsbD i = (w.getLsbD i || decide (f.Holds i) && v.getLsbD (i - f.pos)) := by
  simp only [insert, BitVec.getLsbD_or, BitVec.getLsbD_shiftLeft, BitVec.getLsbD_and, getLsbD_mask,
    Holds]
  grind

theorem getLsbD_clear (f : Field) (w : Word) {i : Nat} (hi : i < 32) :
    (f.clear w).getLsbD i = (w.getLsbD i && !decide (f.Holds i)) := by
  simp only [clear, BitVec.getLsbD_and, BitVec.getLsbD_not, BitVec.getLsbD_shiftLeft, getLsbD_mask,
    Holds]
  grind

@[simp]
theorem insert_zero (f : Field) (w : Word) : f.insert w 0 = w := by
  simp [insert]

@[simp]
theorem extract_zero (f : Field) : f.extract 0 = 0 := by
  simp [extract]

-- A field is known from the bits that it holds.
theorem extract_congr {w' : Word} (h : ∀ i < 32, f.Holds i → w'.getLsbD i = w.getLsbD i) :
    f.extract w' = f.extract w := by
  apply BitVec.eq_of_getLsbD_eq
  intro i _
  rw [getLsbD_extract, getLsbD_extract]
  by_cases hi : i < f.width ∧ f.pos + i < 32
  case pos => rw [h _ hi.right ⟨by omega, by omega⟩]
  case neg =>
    by_cases hw : i < f.width
    case pos => rw [BitVec.getLsbD_of_ge _ _ (by omega), BitVec.getLsbD_of_ge _ _ (by omega)]
    case neg => simp [hw]

-- What a field holds tells its bits.
theorem getLsbD_of_extract_eq {w' : Word} {i : Nat} (h : f.extract w = f.extract w')
    (hi : f.Holds i) : w.getLsbD i = w'.getLsbD i := by
  have ⟨hl, hu⟩ := hi
  have hb := congrArg (BitVec.getLsbD · (i - f.pos)) h
  simpa [getLsbD_extract, Nat.sub_lt_left_of_lt_add hl hu, Nat.add_sub_cancel' hl] using hb

theorem extract_insert_of_disjoint (h : f.Disjoint g) :
    g.extract (f.insert w v) = g.extract w :=
  extract_congr fun i hi hg => by simp [getLsbD_insert _ _ _ hi, h.symm.not_holds hg]

-- What is inserted joins what the field holds already.
theorem extract_insert (hf : f.pos + f.width ≤ 32) :
    f.extract (f.insert w v) = f.extract w ||| (v &&& f.mask) := by
  apply BitVec.eq_of_getLsbD_eq
  intro i hi
  simp only [getLsbD_extract, BitVec.getLsbD_or, BitVec.getLsbD_and, getLsbD_mask]
  by_cases hw : i < f.width
  case pos =>
    rw [getLsbD_insert _ _ _ (by omega)]
    simp [Holds, hw, hi]
  case neg => simp [hw]

theorem clear_insert_of_disjoint (h : f.Disjoint g) :
    g.clear (f.insert w v) = f.insert (g.clear w) v := by
  apply BitVec.eq_of_getLsbD_eq
  intro i hi
  simp only [getLsbD_clear, getLsbD_insert, hi]
  have := h.not_holds (i := i)
  grind

-- The low bits of a value in two steps: those above the lowest `n`, and the lowest `n`.
theorem extract_low_add (m n : Nat) (v : Word) :
    ((v >>> n) &&& mask ⟨0, m⟩) <<< n ||| extract ⟨0, n⟩ v = extract ⟨0, m + n⟩ v := by
  apply BitVec.eq_of_getLsbD_eq
  intro i hi
  simp only [BitVec.getLsbD_or, BitVec.getLsbD_shiftLeft, BitVec.getLsbD_and,
    BitVec.getLsbD_ushiftRight, getLsbD_mask, getLsbD_extract]
  grind

theorem shiftLeft_and_mask (n : Nat) (v : Word) : (v <<< n) &&& mask ⟨0, n⟩ = 0 := by
  apply BitVec.eq_of_getLsbD_eq
  intro i hi
  simp only [BitVec.getLsbD_and, BitVec.getLsbD_shiftLeft, getLsbD_mask]
  grind

theorem setWidth_extract_low (n : Nat) (v : Word) :
    (extract ⟨0, n⟩ v).setWidth n = v.setWidth n := by
  apply BitVec.eq_of_getLsbD_eq
  intro i hi
  simp [getLsbD_extract, hi]

theorem toNat_extract_low (n : Nat) (v : Word) : (extract ⟨0, n⟩ v).toNat = v.toNat % 2 ^ n := by
  have h := congrArg BitVec.toNat (setWidth_extract_low n v)
  rwa [BitVec.toNat_setWidth, BitVec.toNat_setWidth, Nat.mod_eq_of_lt (toNat_extract_lt ..)] at h

end Field

theorem eq_of_setWidth_eq {x y : Word} {n : Nat} (hx : x.toNat < 2 ^ n) (hy : y.toNat < 2 ^ n)
    (h : x.setWidth n = y.setWidth n) : x = y := by
  have hn := congrArg BitVec.toNat h
  rw [BitVec.toNat_setWidth, BitVec.toNat_setWidth, Nat.mod_eq_of_lt hx, Nat.mod_eq_of_lt hy] at hn
  exact BitVec.eq_of_toNat_eq hn

theorem LittleEndian.getElem?_encode {n k : Nat} (v : Nat) (h : k < n) :
    (encode n v)[k]? = some (BitVec.ofNat 8 (v / 2 ^ (8 * k))) := by
  induction n generalizing v k
  case zero => cases h
  case succ n ih =>
    cases k
    case zero => simp [encode]
    case succ k =>
      have hp : 256 * 2 ^ (8 * k) = 2 ^ (8 * (k + 1)) := by rw [Nat.mul_succ, Nat.pow_add']
      rw [encode, List.getElem?_cons_succ, ih _ (by omega), Nat.div_div_eq_div_mul, hp]

-- The bits of a word are those of its bytes.
theorem Word.getLsbD_eq (w : Word) {i : Nat} (hi : i < 32) :
    w.getLsbD i = (w.toBytes[i / 8]?.getD 0).getLsbD (i % 8) := by
  rw [toBytes, LittleEndian.getElem?_encode _ (by omega), Option.getD_some, BitVec.getLsbD_ofNat,
    Nat.testBit_div_two_pow, Nat.mod_add_div, decide_eq_true (by omega), Bool.true_and]
  rfl

namespace Layout

variable {l : Layout} {f : Field} {w w' v : Word}

structure Sound (l : Layout) : Prop where
  inWord   : ∀ f ∈ l, f.pos + f.width ≤ 32
  disjoint : l.Pairwise Field.Disjoint

theorem Sound.tail {fs : Layout} (h : Sound (f :: fs)) : Sound fs where
  inWord   := fun g hg => h.inWord g (List.mem_cons_of_mem _ hg)
  disjoint := h.disjoint.tail

theorem Sound.head_disjoint {fs : Layout} (h : Sound (f :: fs)) {g : Field} (hg : g ∈ fs) :
    f.Disjoint g :=
  List.rel_of_pairwise_cons h.disjoint hg

-- The bits of a word that the fields of a layout take up.
def bits (l : Layout) : List Nat :=
  l.flatMap fun f => List.range' f.pos f.width

theorem length_bits (l : Layout) : l.bits.length = l.width := by
  induction l
  case nil => rfl
  case cons f fs ih =>
    rw [bits, List.flatMap_cons, List.length_append, List.length_range', width, ← ih, bits]

theorem Sound.nodup_bits (hs : l.Sound) : l.bits.Nodup := by
  have hpairs := hs.disjoint
  refine List.nodup_flatMap.mpr ⟨fun _ _ => List.nodup_range', hpairs.imp fun hfg i hf hg => ?_⟩
  rw [List.mem_range'_1] at hf hg
  exact hfg.not_holds hf hg

-- Disjoint fields have no more bits together than the word.
theorem Sound.width_le (hs : l.Sound) : l.width ≤ 32 := by
  have hsub : l.bits ⊆ List.range 32 := by
    intro i hi
    obtain ⟨f, hf, hif⟩ := List.mem_flatMap.mp hi
    have := hs.inWord f hf
    rw [List.mem_range'_1] at hif
    exact List.mem_range.mpr (by omega)
  have hlen := hs.nodup_bits.length_le_of_subset hsub
  rwa [length_bits, List.length_range] at hlen

theorem foldl_extract (fs : Layout) (acc : Word) :
    fs.foldl (fun acc f => (acc <<< f.width) ||| f.extract w) acc =
      (acc <<< width fs) ||| extract fs w := by
  induction fs generalizing acc
  case nil => simp [width, extract]
  case cons f fs hi =>
    have hc : extract (f :: fs) w = (f.extract w <<< width fs) ||| extract fs w := by
      conv => lhs; rw [extract, List.foldl_cons, hi]
      simp
    rw [List.foldl_cons, hi, hc, width]
    simp [BitVec.shiftLeft_or_distrib, BitVec.shiftLeft_add, BitVec.or_assoc]

theorem extract_cons (f : Field) (fs : Layout) (w : Word) :
    extract (f :: fs) w = (f.extract w <<< width fs) ||| extract fs w := by
  rw [extract, List.foldl_cons, foldl_extract]
  simp

theorem extract_singleton (f : Field) (w : Word) : extract [f] w = f.extract w := by
  simp [extract]

theorem extract_insert_of_disjoint (h : ∀ g ∈ l, g.Disjoint f) :
    f.extract (l.insert w v) = f.extract w := by
  induction l generalizing w
  case nil => rfl
  case cons g gs hi =>
    rw [insert, hi fun g' hg => h g' (List.mem_cons_of_mem _ hg)]
    exact Field.extract_insert_of_disjoint (h g List.mem_cons_self)

theorem extract_fieldInsert_of_disjoint (h : ∀ g ∈ l, f.Disjoint g) :
    l.extract (f.insert w v) = l.extract w := by
  induction l
  case nil => rfl
  case cons g gs hi =>
    rw [extract_cons, extract_cons, hi fun g' hg => h g' (List.mem_cons_of_mem _ hg),
      Field.extract_insert_of_disjoint (h g List.mem_cons_self)]

-- What is scattered joins what the layout holds already.
theorem extract_insert (hs : l.Sound) :
    l.extract (l.insert w v) = l.extract w ||| Field.extract ⟨0, l.width⟩ v := by
  induction l generalizing w
  case nil => simp [extract, insert, width, Field.extract, Field.mask]
  case cons f fs hi =>
    have hf : f.extract (insert fs (f.insert w (v >>> width fs)) v) =
        f.extract w ||| (v >>> width fs &&& f.mask) := by
      rw [extract_insert_of_disjoint fun g hg => (hs.head_disjoint hg).symm,
        Field.extract_insert (hs.inWord f List.mem_cons_self)]
    have hfs : extract fs (f.insert w (v >>> width fs)) = extract fs w :=
      extract_fieldInsert_of_disjoint fun g hg => hs.head_disjoint hg
    rw [insert, extract_cons, extract_cons, hf, hi hs.tail, hfs, width, ← Field.extract_low_add,
      BitVec.shiftLeft_or_distrib]
    simp only [Field.mask]
    ac_rfl

theorem toNat_extract_lt (hl : l.width ≤ 32) (w : Word) : (l.extract w).toNat < 2 ^ l.width := by
  induction l
  case nil => simp [extract, width]
  case cons f fs hi =>
    simp only [width] at hl ⊢
    have hf := f.toNat_extract_lt w
    have hfs : (extract fs w).toNat < 2 ^ (f.width + width fs) :=
      Nat.lt_of_lt_of_le (hi (by omega)) (Nat.pow_le_pow_right (by decide) (by omega))
    have hs : (f.extract w <<< width fs).toNat < 2 ^ (f.width + width fs) := by
      rw [BitVec.toNat_shiftLeft, Nat.shiftLeft_eq, Nat.pow_add]
      exact Nat.lt_of_le_of_lt (Nat.mod_le ..)
        (Nat.mul_lt_mul_of_pos_right hf (Nat.two_pow_pos _))
    rw [extract_cons, BitVec.toNat_or]
    exact Nat.or_lt_two_pow hs hfs

theorem toNat_extract_cons {fs : Layout} (hl : width (f :: fs) ≤ 32) (w : Word) :
    (extract (f :: fs) w).toNat = (f.extract w).toNat * 2 ^ width fs + (extract fs w).toNat := by
  rw [width] at hl
  have hfs := toNat_extract_lt (l := fs) (by omega) w
  have hs : (f.extract w).toNat * 2 ^ width fs < 2 ^ 32 := by
    have hf := Nat.mul_lt_mul_of_pos_right (f.toNat_extract_lt w) (Nat.two_pow_pos (width fs))
    rw [← Nat.pow_add] at hf
    exact Nat.lt_of_lt_of_le hf (Nat.pow_le_pow_right (by decide) hl)
  rw [extract_cons, BitVec.toNat_or, BitVec.toNat_shiftLeft, Nat.shiftLeft_eq, Nat.mod_eq_of_lt hs,
    ← Nat.shiftLeft_eq, Nat.shiftLeft_add_eq_or_of_lt hfs]

-- What a layout gathers tells what each of its fields holds.
theorem extract_field_eq (hl : l.width ≤ 32) (h : l.extract w = l.extract w') :
    ∀ f ∈ l, f.extract w = f.extract w' := by
  induction l
  case nil => simp
  case cons g fs hi =>
    have hn := congrArg BitVec.toNat h
    rw [toNat_extract_cons hl, toNat_extract_cons hl] at hn
    rw [width] at hl
    have hw := toNat_extract_lt (l := fs) (by omega) w
    have hw' := toNat_extract_lt (l := fs) (by omega) w'
    have hr := congrArg (· % 2 ^ width fs) hn
    simp only [Nat.mul_add_mod_self_right, Nat.mod_eq_of_lt hw, Nat.mod_eq_of_lt hw'] at hr
    simp only [hr, Nat.add_right_cancel_iff] at hn
    have hg := Nat.eq_of_mul_eq_mul_right (Nat.two_pow_pos _) hn
    intro f hf
    cases hf
    case head => exact BitVec.eq_of_toNat_eq hg
    case tail hf => exact hi (by omega) (BitVec.eq_of_toNat_eq hr) f hf

-- Whether two words differ in bits of the layout only.
def Confines (l : Layout) (w w' : Word) : Prop :=
  ∀ i < 32, (∀ f ∈ l, ¬f.Holds i) → w'.getLsbD i = w.getLsbD i

theorem getLsbD_clear (l : Layout) (w : Word) {i : Nat} (hi : i < 32) :
    (l.clear w).getLsbD i = (w.getLsbD i && !decide (∃ f ∈ l, f.Holds i)) := by
  unfold clear
  induction l generalizing w
  case nil => simp
  case cons f l ih =>
    rw [List.foldl_cons, ih, Field.getLsbD_clear f w hi]
    simp [Bool.and_assoc]

theorem extract_clear (hf : f ∈ l) (w : Word) : f.extract (l.clear w) = 0 := by
  apply BitVec.eq_of_getLsbD_eq
  intro i _
  simp only [Field.getLsbD_extract, BitVec.ofNat_eq_ofNat, BitVec.getLsbD_zero,
    Bool.and_eq_false_imp, decide_eq_true_eq]
  intro hi
  by_cases hlt : f.pos + i < 32
  case neg => exact BitVec.getLsbD_of_ge _ _ (by omega)
  case pos =>
    have hholds : ∃ g ∈ l, g.Holds (f.pos + i) := ⟨f, hf, by omega, by omega⟩
    rw [getLsbD_clear l w hlt, decide_eq_true hholds, Bool.not_true, Bool.and_false]

theorem extract_eq_zero (h : ∀ f ∈ l, f.extract w = 0) : l.extract w = 0 := by
  induction l
  case nil => rfl
  case cons f fs ih =>
    have ⟨hf, hfs⟩ := List.forall_mem_cons.mp h
    rw [extract_cons, hf, ih hfs]
    simp

-- A layout is read as the low bits of what was put into it.
theorem extract_replace (hs : l.Sound) :
    l.extract (l.replace w v) = Field.extract ⟨0, l.width⟩ v := by
  have hz : l.extract (l.clear w) = 0 := extract_eq_zero fun _ hf => extract_clear hf w
  rw [replace, extract_insert hs, hz]
  exact BitVec.zero_or

theorem confines_insert (l : Layout) (w v : Word) : l.Confines w (l.insert w v) := by
  intro i hi h
  induction l generalizing w
  case nil => rfl
  case cons f l ih =>
    have ⟨hf, hl⟩ := List.forall_mem_cons.mp h
    rw [insert, ih _ hl, Field.getLsbD_insert f w _ hi]
    simp [hf]

theorem confines_replace (l : Layout) (w v : Word) : l.Confines w (l.replace w v) := by
  intro i hi h
  rw [replace, confines_insert l _ v i hi h, getLsbD_clear l w hi]
  simpa using fun _ => h

theorem Confines.clear_eq (h : l.Confines w w') : l.clear w' = l.clear w := by
  apply BitVec.eq_of_getLsbD_eq
  intro i hi
  rw [getLsbD_clear l w hi, getLsbD_clear l w' hi]
  by_cases hl : ∃ f ∈ l, f.Holds i
  case pos => simp [hl]
  case neg => rw [h i hi (by simpa using hl)]

-- What a layout holds does not matter once it is replaced.
theorem Confines.replace_eq (h : l.Confines w w') (v : Word) : l.replace w' v = l.replace w v := by
  rw [replace, h.clear_eq, replace]

-- A word is known from what a layout holds of it and from the bits outside.
theorem Confines.eq_of_extract_eq (h : l.Confines w w') (hl : l.width ≤ 32)
    (he : l.extract w' = l.extract w) : w' = w := by
  apply BitVec.eq_of_getLsbD_eq
  intro i hi
  by_cases hf : ∃ f ∈ l, f.Holds i
  case pos =>
    obtain ⟨f, hf, hfi⟩ := hf
    exact Field.getLsbD_of_extract_eq (extract_field_eq hl he f hf) hfi
  case neg => exact h i hi (by simpa using hf)

-- Words of which each byte is that of one of two words.
theorem Confines.of_bytes {w'' : Word} (h : l.Confines w w')
    (hb : ∀ k < 4, w''.toBytes[k]? = w.toBytes[k]? ∨ w''.toBytes[k]? = w'.toBytes[k]?) :
    l.Confines w w'' := by
  intro i hi hl
  rw [Word.getLsbD_eq w hi, Word.getLsbD_eq w'' hi]
  rcases hb (i / 8) (by omega) with hk | hk
  case inl => rw [hk]
  case inr => rw [hk, ← Word.getLsbD_eq w' hi, h i hi hl, Word.getLsbD_eq w hi]

theorem Confines.extract_eq (h : l.Confines w w') (hf : ∀ g ∈ l, g.Disjoint f) :
    f.extract w' = f.extract w :=
  Field.extract_congr fun i hi hh => h i hi fun g hg => (hf g hg).symm.not_holds hh

end Layout

end RV32IM
