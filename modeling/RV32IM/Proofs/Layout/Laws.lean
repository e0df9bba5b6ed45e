import RV32IM.Proofs.Layout.Lens
import RV32IM.Proofs.Layout.SignExtend

-- The laws of layouts whose fields are disjoint. What is put into the fields is read back, what was
-- read may be put back, and the bits outside stay as they are. No shift on the way is by as much as
-- the width of a word: the same loops, over shifts that give nothing for such an amount, always
-- give a result, and the same one.

namespace RV32IM

section Shifts

-- The functions on words, fields and layouts once more, where a shift gives nothing if its amount
-- is not below the width of a word.

def Word.shiftLeft? (w : Word) (n : Nat) : Option Word :=
  if n < 32 then some (w <<< n) else none

def Word.shiftRight? (w : Word) (n : Nat) : Option Word :=
  if n < 32 then some (w >>> n) else none

-- The shift that copies the sign.
def Word.signedShiftRight? (w : Word) (n : Nat) : Option Word :=
  if n < 32 then some (w.sshiftRight n) else none

def valueCount? (width : Nat) : Option Nat :=
  if width < 32 then some (valueCount width) else none

def fitsSigned? (v : Int) (width : Nat) : Option Bool := do
  let bound ← valueCount? (width - 1)
  return -(bound : Int) ≤ v && v < bound

-- Moves the sign to the top of the word and back.
def signExtend? (w : Word) (width : Nat) : Option Word :=
  if width = 0 then some 0
  else if width < 32 then do
    (← w.shiftLeft? (32 - width)).signedShiftRight? (32 - width)
  else some w

namespace Field

def mask? (f : Field) : Option Word :=
  if f.width < 32 then do return (← Word.shiftLeft? 1 f.width) - 1 else some (BitVec.allOnes 32)

def extract? (f : Field) (w : Word) : Option Word := do
  return (← w.shiftRight? f.pos) &&& (← f.mask?)

def insert? (f : Field) (w value : Word) : Option Word := do
  return w ||| (← Word.shiftLeft? (value &&& (← f.mask?)) f.pos)

def clear? (f : Field) (w : Word) : Option Word := do
  return w &&& ~~~(← (← f.mask?).shiftLeft? f.pos)

end Field

namespace Layout

def extract? (l : Layout) (w : Word) : Option Word :=
  l.foldlM (fun acc f => do return (← Word.shiftLeft? acc f.width) ||| (← f.extract? w)) 0

def extractSigned? (l : Layout) (w : Word) : Option Word := do
  signExtend? (← l.extract? w) l.width

-- Scatters a value from its highest bits down, of which `rest` are left.
def insert? (l : Layout) (w value : Word) : Option Word :=
  go l l.width w
where
  go : Layout → Nat → Word → Option Word
    | [], _, w => some w
    | f :: fs, rest, w => do
      let part ← value.shiftRight? (rest - f.width)
      go fs (rest - f.width) (← f.insert? w part)

def clear? (l : Layout) (w : Word) : Option Word :=
  l.foldlM (fun acc f => f.clear? acc) w

-- Whether no function of a layout shifts a word by its width or more.
structure ShiftsWithin (l : Layout) : Prop where
  extract       : ∀ w, l.extract? w = some (l.extract w)
  extractSigned : ∀ w, l.extractSigned? w = some (l.extractSigned w)
  insert        : ∀ w value, l.insert? w value = some (l.insert w value)
  clear         : ∀ w, l.clear? w = some (l.clear w)
  fitsSigned    : ∀ v, fitsSigned? v l.width = some (fitsSigned v l.width)

end Layout

end Shifts

variable {n : Nat} {f : Field} {l : Layout}

section Amounts

-- A loop whose every round gives a result gives one.
theorem foldlM_eq_some {α β : Type} {g : β → α → Option β} {h : β → α → β} {xs : List α}
    (hg : ∀ b, ∀ a ∈ xs, g b a = some (h b a)) (b : β) :
    xs.foldlM g b = some (xs.foldl h b) := by
  induction xs generalizing b
  case nil => rfl
  case cons a xs ih =>
    rw [List.foldlM_cons, hg b a List.mem_cons_self]
    exact ih (fun b a ha => hg b a (List.mem_cons_of_mem _ ha)) (h b a)

theorem Word.shiftLeft?_of_lt (w : Word) (h : n < 32) : w.shiftLeft? n = some (w <<< n) :=
  if_pos h

theorem Word.shiftRight?_of_lt (w : Word) (h : n < 32) : w.shiftRight? n = some (w >>> n) :=
  if_pos h

theorem Word.signedShiftRight?_of_lt (w : Word) (h : n < 32) :
    w.signedShiftRight? n = some (w.sshiftRight n) :=
  if_pos h

theorem fitsSigned?_of_le (v : Int) (hn : n ≤ 32) : fitsSigned? v n = some (fitsSigned v n) := by
  simp [fitsSigned?, valueCount?, fitsSigned, show n - 1 < 32 by omega]

-- The low bits of a word keep their sign while they are moved to its top and back.
theorem sshiftRight_shiftLeft (w : Word) (hn : 0 < n) (hn' : n < 32) :
    (w <<< (32 - n)).sshiftRight (32 - n) = (w.setWidth n).signExtend 32 := by
  have hmsb : (w <<< (32 - n)).msb = (w.setWidth n).msb := by
    simp only [BitVec.msb_eq_getLsbD_last, BitVec.getLsbD_shiftLeft, BitVec.getLsbD_setWidth]
    grind
  apply BitVec.eq_of_getLsbD_eq
  intro i hi
  rw [BitVec.getLsbD_sshiftRight, BitVec.getLsbD_signExtend, hmsb, BitVec.getLsbD_shiftLeft,
    BitVec.getLsbD_setWidth]
  grind

theorem signExtend?_of_pos (w : Word) (hn : 0 < n) : signExtend? w n = some (signExtend w n) := by
  rw [signExtend?, signExtend, if_neg (Nat.ne_of_gt hn)]
  split
  case isTrue hlt =>
    have hs : 32 - n < 32 := Nat.sub_lt (by decide) hn
    simp [Word.shiftLeft?_of_lt w hs, Word.signedShiftRight?_of_lt _ hs,
      sshiftRight_shiftLeft w hn hlt]
  case isFalse => rfl

namespace Field

theorem mask?_of_lt (hw : f.width < 32) : f.mask? = some f.mask := by
  have h : 1#32 <<< f.width = BitVec.ofNat 32 (1 <<< f.width) := by
    apply BitVec.eq_of_toNat_eq
    simp [Nat.shiftLeft_eq]
  simp [mask?, mask, hw, Word.shiftLeft?_of_lt, h]

theorem extract?_of_lt (w : Word) (hp : f.pos < 32) (hw : f.width < 32) :
    f.extract? w = some (f.extract w) := by
  simp [extract?, extract, mask?_of_lt hw, Word.shiftRight?_of_lt w hp]

theorem insert?_of_lt (w value : Word) (hp : f.pos < 32) (hw : f.width < 32) :
    f.insert? w value = some (f.insert w value) := by
  simp [insert?, insert, mask?_of_lt hw, Word.shiftLeft?_of_lt _ hp]

theorem clear?_of_lt (w : Word) (hp : f.pos < 32) (hw : f.width < 32) :
    f.clear? w = some (f.clear w) := by
  simp [clear?, clear, mask?_of_lt hw, Word.shiftLeft?_of_lt _ hp]

end Field

namespace Layout

-- Whether every field holds a bit at least, and not all bits of a word.
def Narrow (l : Layout) : Prop :=
  ∀ f ∈ l, 0 < f.width ∧ f.width < 32

instance (l : Layout) : Decidable l.Narrow :=
  inferInstanceAs (Decidable (∀ f ∈ l, _))

theorem Sound.pos_lt (hs : l.Sound) (hn : l.Narrow) (hf : f ∈ l) : f.pos < 32 := by
  have := hs.inWord f hf
  have := hn f hf
  omega

theorem extract?_of_narrow (hs : l.Sound) (hn : l.Narrow) (w : Word) :
    l.extract? w = some (l.extract w) := by
  refine foldlM_eq_some (fun acc f hf => ?_) 0
  have hw := (hn f hf).right
  simp [Word.shiftLeft?_of_lt acc hw, f.extract?_of_lt w (hs.pos_lt hn hf) hw]

theorem clear?_of_narrow (hs : l.Sound) (hn : l.Narrow) (w : Word) :
    l.clear? w = some (l.clear w) :=
  foldlM_eq_some (fun acc _ hf => Field.clear?_of_lt acc (hs.pos_lt hn hf) (hn _ hf).right) w

-- What is left of the value once a field is filled is what the fields behind it take.
theorem insert?_of_narrow (hs : l.Sound) (hn : l.Narrow) (w value : Word) :
    l.insert? w value = some (l.insert w value) := by
  unfold insert?
  induction l generalizing w
  case nil => rfl
  case cons f fs ih =>
    have ⟨hf, hfs⟩ := List.forall_mem_cons.mp hn
    have hle := hs.width_le
    rw [width] at hle
    have hpart := value.shiftRight?_of_lt (show width fs < 32 by omega)
    have hpos := hs.pos_lt hn List.mem_cons_self
    have hinsert := f.insert?_of_lt w (value >>> width fs) hpos hf.right
    simp [insert?.go, width, insert, hpart, hinsert, ih hs.tail hfs]

theorem width_pos (hl : l ≠ []) (hn : l.Narrow) : 0 < l.width := by
  cases l
  case nil => contradiction
  case cons f fs => exact Nat.add_pos_left (hn f List.mem_cons_self).left _

theorem shiftsWithin (hl : l ≠ []) (hs : l.Sound) (hn : l.Narrow) : l.ShiftsWithin where
  extract       := extract?_of_narrow hs hn
  insert        := insert?_of_narrow hs hn
  clear         := clear?_of_narrow hs hn
  fitsSigned v  := fitsSigned?_of_le v hs.width_le
  extractSigned w := by
    have hsigned := signExtend?_of_pos (l.extract w) (width_pos hl hn)
    simp [extractSigned?, extractSigned, extract?_of_narrow hs hn, hsigned]

end Layout

end Amounts

theorem toInt_ofInt_of_fitsSigned {v : Int} (hn : n ≤ 32) (hv : fitsSigned v n) :
    (BitVec.ofInt 32 v).toInt = v := by
  have ⟨hl, hu⟩ := fitsSigned_iff.mp hv
  have hp : (2 ^ (n - 1) : Int) ≤ 2 ^ 31 := by
    exact_mod_cast Nat.pow_le_pow_right (n := 2) (by decide) (show n - 1 ≤ 31 by omega)
  rw [BitVec.toInt_ofInt]
  exact Int.bmod_eq_of_le (by omega) (by omega)

namespace Layout

theorem replace_extract (hs : l.Sound) (w : Word) : l.replace w (l.extract w) = w := by
  have hlt := toNat_extract_lt hs.width_le w
  refine (confines_replace l w (l.extract w)).eq_of_extract_eq hs.width_le ?_
  apply BitVec.eq_of_toNat_eq
  rw [extract_replace hs, Field.toNat_extract_low, Nat.mod_eq_of_lt hlt]

theorem extractSigned_replace (hs : l.Sound) (hl : 0 < l.width) (w : Word) {v : Word}
    (hv : fitsSigned v.toInt l.width) : l.extractSigned (l.replace w v) = v := by
  refine signExtend_eq_of_fitsSigned hl hv ?_
  rw [extract_replace hs, Field.setWidth_extract_low]

-- A layout of disjoint fields is a lens, for values that wrap to its width and for signed values
-- that fit it.
theorem lens (hl : l ≠ []) (hs : l.Sound) (hn : l.Narrow) :
    (∀ w v : Word, (l.extract (l.replace w v)).toNat = v.toNat % 2 ^ l.width) ∧
    (∀ w : Word, l.replace w (l.extract w) = w) ∧
    (∀ w v : Word, l.clear (l.replace w v) = l.clear w) ∧
    (∀ (w : Word) (v : Int), fitsSigned v l.width →
      (l.extractSigned (l.replace w (BitVec.ofInt 32 v))).toInt = v) ∧
    l.ShiftsWithin := by
  refine ⟨fun w v => ?_, replace_extract hs, fun w v => (confines_replace l w v).clear_eq,
    fun w v hv => ?_, shiftsWithin hl hs hn⟩
  case refine_1 => rw [extract_replace hs, Field.toNat_extract_low]
  case refine_2 =>
    have hint := toInt_ofInt_of_fitsSigned hs.width_le hv
    rw [extractSigned_replace hs (width_pos hl hn) w (hint.symm ▸ hv), hint]

-- A branch whose displacement is replaced by one that is too wide, and by the least that fits.
theorem lens_bImm :
    bImm ≠ [] ∧ bImm.Sound ∧ bImm.Narrow ∧
      (bImm.extract (bImm.replace 0xFE208EE3 0x1234)).toNat = 0x234 ∧
      bImm.replace 0xFE208EE3 (bImm.extract 0xFE208EE3) = 0xFE208EE3 ∧
      bImm.clear (bImm.replace 0xFE208EE3 0x1234) = 0x00208063 ∧
      (bImm.extractSigned (bImm.replace 0xFE208EE3 (BitVec.ofInt 32 (-2048)))).toInt = -2048 ∧
      bImm.ShiftsWithin := by
  have hs : bImm.Sound := ⟨by decide, by decide⟩
  have hn : bImm.Narrow := by decide
  have ⟨hread, hback, hclear, hsigned, hshifts⟩ := lens (by decide : bImm ≠ []) hs hn
  exact ⟨by decide, hs, hn, hread 0xFE208EE3 0x1234, hback 0xFE208EE3, hclear 0xFE208EE3 0x1234,
    hsigned 0xFE208EE3 (-2048) (by decide), hshifts⟩

end Layout

end RV32IM
