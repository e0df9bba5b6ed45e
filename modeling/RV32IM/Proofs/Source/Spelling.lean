import RV32IM.Proofs.Source.Spacing

-- Spellings of operands. A register, a number or an operator may be written in many ways; whichever
-- is chosen, what is read is what was meant.

namespace RV32IM

namespace Numeral

variable {c : Char} {cs : List Char} {radix limit v n : Nat}

theorem isIdentRest_of_digit? {d : Nat} (h : digit? radix c = some d) : Source.isIdentRest c := by
  unfold digit? at h
  split at h
  case isTrue hd =>
    have hd : c.isDigit := hd
    simp [Source.isIdentRest, hd]
  case isFalse =>
  split at h
  case isTrue hl =>
    have hl : c.isLower := hl
    simp [Source.isIdentRest, Source.isIdentStart, Char.isAlpha, hl]
  case isFalse =>
  split at h
  case isTrue hu =>
    have hu : c.isUpper := by simpa [Char.isUpper, Char.le_def] using hu
    simp [Source.isIdentRest, Source.isIdentStart, Char.isAlpha, hu]
  case isFalse => simp at h

theorem isIdentRest_of_digits (h : digits radix limit v cs = .ok n) :
    ∀ c ∈ cs, Source.isIdentRest c := by
  induction cs generalizing v
  case nil => nofun
  case cons c cs ih =>
    unfold digits at h
    split at h
    case h_1 => cases h
    case h_2 d hd =>
      split at h
      case isTrue => exact List.forall_mem_cons.mpr ⟨isIdentRest_of_digit? hd, ih h⟩
      case isFalse => cases h

-- What a number is made of: letters and digits, and signs.
def IsSigned (cs : List Char) : Prop :=
  ∀ c ∈ cs, Source.isIdentRest c ∨ c = '+' ∨ c = '-'

theorem IsSigned.of_digits (h : digits radix limit v cs = .ok n) : IsSigned cs :=
  fun c hc => .inl (isIdentRest_of_digits h c hc)

theorem IsSigned.cons (hc : Source.isIdentRest c ∨ c = '+' ∨ c = '-') (h : IsSigned cs) :
    IsSigned (c :: cs) :=
  List.forall_mem_cons.mpr ⟨hc, h⟩

theorem isSigned_of_natural (h : natural radix limit cs = .ok n) : IsSigned cs := by
  unfold natural at h
  split at h
  case h_1 | h_2 => cases h
  case h_3 => exact .cons (.inr (.inl rfl)) (.of_digits h)
  case h_4 => exact .of_digits h

theorem isSigned_of_integer? {i : Int} (h : integer? radix cs = some i) : IsSigned cs := by
  unfold integer? at h
  split at h
  case h_1 => cases h
  case h_2 cs _ =>
    cases hd : digits radix (valueCount 63 + 1) 0 cs
    case error => simp [hd, Except.toOption] at h
    case ok => exact .cons (.inr (.inr rfl)) (.of_digits hd)
  case h_3 =>
    cases hn : natural radix (valueCount 63) cs
    case error => simp [hn, Except.toOption] at h
    case ok => exact isSigned_of_natural hn

end Numeral

namespace Source

open Text Numeral

section Number

variable {c : Char} {cs : Chars} {i : Int}

theorem isSigned_of_unsigned (h : number?.unsigned cs = some i) : IsSigned cs := by
  have hdigit : isIdentRest '0' ∧ isIdentRest 'x' ∧ isIdentRest 'X' ∧ isIdentRest 'b' ∧
      isIdentRest 'B' := by decide
  obtain ⟨h0, hx, hX, hb, hB⟩ := hdigit
  unfold number?.unsigned at h
  split at h
  case h_1 => exact .cons (.inl h0) (.cons (.inl hx) (isSigned_of_integer? h))
  case h_2 => exact .cons (.inl h0) (.cons (.inl hX) (isSigned_of_integer? h))
  case h_3 => exact .cons (.inl h0) (.cons (.inl hb) (isSigned_of_integer? h))
  case h_4 => exact .cons (.inl h0) (.cons (.inl hB) (isSigned_of_integer? h))
  case h_5 => exact isSigned_of_integer? h

theorem isSigned_of_number? (h : number? cs = some i) : IsSigned (trim cs) := by
  have hf : IsSigned ((trim cs).filter (· ≠ '_')) := by
    unfold number? at h
    generalize (trim cs).filter (· ≠ '_') = ds at h ⊢
    simp only at h
    split at h
    case h_1 ds =>
      obtain ⟨v, hv, _⟩ := Option.map_eq_some_iff.mp h
      exact .cons (.inr (.inr rfl)) (isSigned_of_unsigned hv)
    case h_2 => exact .cons (.inr (.inl rfl)) (isSigned_of_unsigned h)
    case h_3 => exact isSigned_of_unsigned h
  intro c hc
  by_cases hu : c = '_'
  case pos => exact .inl (by rw [hu]; rfl)
  case neg => exact hf c (List.mem_filter.mpr ⟨hc, decide_eq_true hu⟩)

theorem isPlain_of_isSigned (h : IsSigned cs) : ∀ c ∈ cs, isPlain c := by
  have hp : isPlain '+' ∧ isPlain '-' := by decide
  intro c hc
  rcases h c hc with hr | rfl | rfl
  case inl => exact (isPlain_of_isIdentRest hr).left
  case inr.inl => exact hp.left
  case inr.inr => exact hp.right

-- A text without white space that is a number.
structure SpellsNumber (cs : Chars) (i : Int) : Prop where
  read     : number? cs = some i
  nonblank : ∀ c ∈ cs, isBlank c = false

theorem SpellsNumber.isSigned (h : SpellsNumber cs i) : IsSigned cs := by
  have := isSigned_of_number? h.read
  rwa [(Trimmed.of_forall h.nonblank).trim_eq] at this

theorem SpellsNumber.isPlain (h : SpellsNumber cs i) : ∀ c ∈ cs, isPlain c :=
  isPlain_of_isSigned h.isSigned

theorem SpellsNumber.ne_nil (h : SpellsNumber cs i) : cs ≠ [] := by
  rintro rfl
  cases h.read

theorem SpellsNumber.isPiece (h : SpellsNumber cs i) : IsPiece cs :=
  .of_plain h.ne_nil h.isPlain

end Number

theorem IsOperand.isPiece {cs : Chars} (h : IsOperand cs) : IsPiece cs where
  quiet c hc := by
    have hi := h.inert c hc
    simp [isInert] at hi
    simp [isQuiet, hi]
  piece := h.piece
  nonempty := h.nonempty
  trimmed := .of_forall h.nonblank

-- A number of `n` bits, signed or unsigned.
inductive SpellsBits (n : Nat) (cs : Chars) : BitVec n → Prop
  | number {i : Int} : SpellsNumber cs i → -(valueCount (n - 1) : Int) ≤ i → i < valueCount n →
    SpellsBits n cs (BitVec.ofInt n i)

inductive SpellsImm : Chars → Imm → Prop
  | value {cs v} : SpellsBits 32 cs v → SpellsImm cs (.value v)
  | hi {name cs} : isIdent name → Padded name cs →
    SpellsImm ("%pcrel_hi".toList ++ '(' :: (cs ++ [')'])) (.hi (String.ofList name))
  | lo {arg cs} {distance : Word} : SpellsNumber arg distance.toNat → Padded arg cs →
    SpellsImm ("%pcrel_lo".toList ++ '(' :: (cs ++ [')'])) (.lo distance)

inductive SpellsTarget : Chars → Target → Prop
  | offset {cs disp} : SpellsBits 32 cs disp → SpellsTarget cs (.offset disp)
  | label {name} : isIdent name → number? name = none →
    SpellsTarget name (.label (String.ofList name))

-- A register and an operand in memory: the register, the base and the offset from it.
inductive SpellsMemory : List Chars → Reg → Reg → Imm → Prop
  | indexed {cs off b inner gap r base imm} : Spells cs r → SpellsImm off imm → Blanks gap →
    Spells b base → Padded b inner →
    SpellsMemory [cs, off ++ (gap ++ '(' :: (inner ++ [')']))] r base imm
  | listed {cs b off r base imm} : Spells cs r → Spells b base → SpellsImm off imm →
    SpellsMemory [cs, b, off] r base imm

section Pieces

variable {cs : Chars} {n : Nat}

theorem SpellsBits.isPiece {v : BitVec n} (h : SpellsBits n cs v) : IsPiece cs := by
  cases h
  case number h _ _ => exact h.isPiece

theorem SpellsBits.isPlain {v : BitVec n} (h : SpellsBits n cs v) : ∀ c ∈ cs, isPlain c := by
  cases h
  case number h _ _ => exact h.isPlain

theorem Padded.isSoft {o : Chars} (h : Padded o cs) (ho : ∀ c ∈ o, isPlain c) :
    ∀ c ∈ cs, isSoft c := by
  cases h
  case pad ha hb =>
    simp only [Source.isSoft, Bool.or_eq_true, List.mem_append]
    rintro c (hc | hc | hc)
    case inl => exact .inr (ha c hc)
    case inr.inl => exact .inl (ho c hc)
    case inr.inr => exact .inr (hb c hc)

-- A word, then something in parentheses.
theorem isPiece_parens {op a : Chars} (hn : op ≠ []) (hop : ∀ c ∈ op, isPlain c)
    (ha : ∀ c ∈ a, isSoft c) : IsPiece (op ++ '(' :: (a ++ [')'])) where
  toPasses := (Passes.of_soft fun c hc => by simp [isSoft, hop c hc]).append (.parens ha)
  nonempty := by simp
  trimmed := by
    have hop : Trimmed op := .of_forall fun c hc => isBlank_of_isPlain (hop c hc)
    have hparen : Trimmed [')'] := .of_forall (List.forall_mem_singleton.mpr rfl)
    have := hop.append hparen hn (by simp) ('(' :: a)
    simpa using this

theorem SpellsImm.isPiece {imm : Imm} (h : SpellsImm cs imm) : IsPiece cs := by
  have hhi : ∀ c ∈ "%pcrel_hi".toList, isPlain c := List.all_eq_true.mp (by decide)
  have hlo : ∀ c ∈ "%pcrel_lo".toList, isPlain c := List.all_eq_true.mp (by decide)
  cases h
  case value h => exact h.isPiece
  case hi name arg hi hp =>
    exact isPiece_parens (by decide) hhi (hp.isSoft (isPlain_of_isIdent hi))
  case lo arg arg' distance hn hp => exact isPiece_parens (by decide) hlo (hp.isSoft hn.isPlain)

theorem SpellsTarget.isPlain {t : Target} (h : SpellsTarget cs t) : ∀ c ∈ cs, isPlain c := by
  cases h
  case offset h => exact h.isPlain
  case label hi _ => exact isPlain_of_isIdent hi

theorem SpellsTarget.isPiece {t : Target} (h : SpellsTarget cs t) : IsPiece cs := by
  cases h
  case offset h => exact h.isPiece
  case label hi _ => exact (isOperand_of_isIdent hi).isPiece

theorem SpellsMemory.isPiece {ops : List Chars} {r base : Reg} {imm : Imm}
    (h : SpellsMemory ops r base imm) : ∀ o ∈ ops, IsPiece o := by
  cases h
  case listed hr hb hoff =>
    simpa using ⟨hr.isOperand.isPiece, hb.isOperand.isPiece, hoff.isPiece⟩
  case indexed cs off b inner gap hgap hp hr hb hoff =>
    have hpass := hoff.isPiece.toPasses.append
      ((Passes.blanks hgap).append (.parens (hp.isSoft hb.isPlain)))
    have hparen : Trimmed [')'] := .of_forall (List.forall_mem_singleton.mpr rfl)
    have htrim := hoff.isPiece.trimmed.append hparen hoff.isPiece.nonempty (by simp)
      (gap ++ '(' :: inner)
    have hmem : IsPiece (off ++ (gap ++ '(' :: (inner ++ [')']))) :=
      ⟨hpass, by simp, by simpa using htrim⟩
    simpa using ⟨hr.isOperand.isPiece, hmem⟩

end Pieces

section Reading

variable {ctx : Context} {cs : Chars} {n : Nat}

theorem value_of_number? {i : Int} (h : number? cs = some i) : ctx.value cs = .ok i := by
  rw [Context.value, h]

theorem SpellsBits.word_eq {v : Word} (h : SpellsBits 32 cs v) : ctx.word cs = .ok v := by
  cases h
  case number h hl hu => exact Context.word_eq_ok h.read hl hu

theorem unsignedWord_eq {w : Word} (h : number? cs = some (w.toNat : Int)) (e : SourceError) :
    ctx.unsignedWord cs e = .ok w := by
  have hw : (0 : Int) ≤ w.toNat ∧ (w.toNat : Int) < valueCount 32 :=
    ⟨Int.natCast_nonneg _, Int.ofNat_lt.mpr w.isLt⟩
  have hv : BitVec.ofInt 32 w.toNat = w := by
    rw [BitVec.ofInt_natCast, BitVec.ofNat_toNat, BitVec.setWidth_eq]
  simp only [Context.unsignedWord, Context.value, h, bind, Except.bind, if_pos hw, hv]
  rfl

theorem Padded.number?_eq {o : Chars} (h : Padded o cs) (ho : Trimmed o) :
    number? cs = number? o := by
  rw [number?, number?, h.trim_eq ho, ho.trim_eq]

theorem argument?_append (op cs : Chars) : argument? op (op ++ '(' :: (cs ++ [')'])) = some cs := by
  have hcs : op ++ '(' :: (cs ++ [')']) = (op ++ ['(']) ++ (cs ++ [')']) := by simp
  rw [hcs, argument?, dropStart?, List.drop_left]
  simp [dropLast?]

theorem SpellsImm.immediate_eq {imm : Imm} (h : SpellsImm cs imm) :
    ctx.immediate cs = .ok imm := by
  have ht := h.isPiece.trimmed.trim_eq
  cases h
  case value v h =>
    have hp : cs.head? ≠ some '%' := by
      intro he
      cases h
      case number h _ _ =>
        have := h.isSigned '%' (List.mem_of_mem_head? he)
        contradiction
    have hhi : argument? "%pcrel_hi".toList cs = none := Context.argument?_eq_none hp
    have hlo : argument? "%pcrel_lo".toList cs = none := Context.argument?_eq_none hp
    simp only [Context.immediate, ht, hhi, hlo, h.word_eq]
    rfl
  case hi name arg hi hp =>
    have hname : trim arg = name := hp.trim_eq (isOperand_of_isIdent hi).isPiece.trimmed
    simp only [Context.immediate, ht, argument?_append, hname, Source.name, if_pos hi]
    rfl
  case lo arg arg' distance hn hp =>
    have hhi : argument? "%pcrel_hi".toList ("%pcrel_lo".toList ++ '(' :: (arg' ++ [')'])) = none :=
      rfl
    have hread := (hp.number?_eq hn.isPiece.trimmed).trans hn.read
    simp only [Context.immediate, ht, hhi, argument?_append, unsignedWord_eq hread]
    rfl

theorem SpellsTarget.target_eq (hc : ctx.constants = []) {t : Target} (h : SpellsTarget cs t) :
    ctx.target cs = .ok t := by
  cases h
  case offset h =>
    have ht := h.isPiece.trimmed.trim_eq
    rw [Context.target, ht, h.word_eq]
  case label hi hn =>
    exact target_of_isIdent hi (fun v hv => by simp [hn] at hv) (by rw [hc]; rfl)

theorem SpellsMemory.registerAndMemory_eq {ops : List Chars} {r base : Reg} {imm : Imm}
    (h : SpellsMemory ops r base imm) (form : String) :
    ctx.registerAndMemory form ops = .ok (r, base, imm) := by
  cases h
  case listed cs b off hr hb hoff =>
    simp only [Context.registerAndMemory, hr.read, hb.read, hoff.immediate_eq]
    rfl
  case indexed cs off b inner gap hgap hp hr hb hoff =>
    have hinner : '(' ∉ inner := by
      intro hm
      have := hp.isSoft hb.isPlain _ hm
      contradiction
    have hoff' : trim (off ++ gap) = off := by
      rw [trim_append_blanks _ hgap, hoff.isPiece.trimmed.trim_eq]
    have hmem := memoryOperand?_append (a := off ++ gap) hinner
    rw [hoff', hp.trim_eq hb.isOperand.isPiece.trimmed, List.append_assoc, List.append_assoc,
      List.cons_append] at hmem
    have hne : off.isEmpty = false := by simpa using hoff.isPiece.nonempty
    simp only [Context.registerAndMemory, hmem, hr.read, hb.read, hne, Bool.false_eq_true, if_false,
      hoff.immediate_eq]
    rfl

end Reading

section Keyword

variable {cs : Chars}

theorem isDigit_of_isAlpha {c : Char} (h : c.isAlpha) : c.isDigit = false := by
  have hall : ∀ n < 128, (Char.ofNat n).isAlpha → (Char.ofNat n).isDigit = false := by decide
  have hr : isIdentRest c := by simp [isIdentRest, isIdentStart, h]
  simpa [h] using hall c.toNat (toNat_lt_of_isIdentRest hr)

-- The keyword that names a constant is neither a register nor a number.
theorem Spells.lower_ne_equ {r : Reg} (h : Spells cs r) : lower cs ≠ "equ".toList := by
  intro he
  have hr := h.lower_read
  have hnone : (Reg.ofNumber? "equ".toList <|> Reg.ofAbiName? "equ".toList) = none := by decide
  rw [he, hnone] at hr
  cases hr

theorem SpellsNumber.lower_ne_equ {i : Int} (h : SpellsNumber cs i) : lower cs ≠ "equ".toList := by
  intro he
  have halpha c (hc : c ∈ cs) : c.isAlpha := by
    have hkey : ∀ c ∈ "equ".toList, c.isAlpha := List.all_eq_true.mp (by decide)
    rw [← Char.isAlpha_toLower_eq_isAlpha]
    exact hkey _ (he ▸ List.mem_map_of_mem hc)
  have hident : isIdent cs := by
    cases cs
    case nil => cases he
    case cons c cs => simp_all [isIdent, isIdentRest, isIdentStart]
  have hnone : number? cs = none := by
    refine number?_eq_none hident fun c hc => isDigit_of_isAlpha (halpha c ?_)
    exact List.mem_of_mem_filter (List.mem_of_mem_head? hc)
  cases hnone.symm.trans h.read

end Keyword

-- Registers by number and by name, and numbers in decimal and in hexadecimal.
theorem Spells.text (r : Reg) : Spells r.text.toList r where
  read := register_text r
  nonblank c hc := isBlank_of_isPlain (isPlain_text r c hc)

theorem Spells.abiName (r : Reg) : Spells r.abiName.toList r where
  read := by
    have h : ∀ i : BitVec 5, Reg.ofText? (Reg.abiName ⟨i⟩).toList = some ⟨i⟩ := by decide
    rw [register, h r.index]
  nonblank := by
    have h : ∀ i : BitVec 5, (Reg.abiName ⟨i⟩).toList.all Source.isPlain := by decide
    exact fun c hc => isBlank_of_isPlain (List.all_eq_true.mp (h r.index) c hc)

theorem SpellsNumber.of_isNumeral {cs : Chars} {i : Int} (h : number? cs = some i)
    (hc : ∀ c ∈ cs, isNumeral c) : SpellsNumber cs i where
  read := h
  nonblank c hm := isBlank_of_isPlain (isPlain_of_isNumeral (hc c hm)).left

theorem SpellsNumber.decimal {v : Int} (hv : v.natAbs < valueCount 63) :
    SpellsNumber (Numeral.decimal v).toList v :=
  .of_isNumeral (number?_decimal hv) fun _ hc => isNumeral_decimal v hc

theorem SpellsNumber.hex {n : Nat} (hn : n < valueCount 63) :
    SpellsNumber ("0x" ++ Numeral.hex n).toList n :=
  .of_isNumeral (number?_hex hn) fun _ hc => isNumeral_hex n hc

theorem SpellsBits.hex {n : Nat} (hn : n < 64) (v : BitVec n) :
    SpellsBits n ("0x" ++ Numeral.hex v.toNat).toList v := by
  have hv : BitVec.ofInt n v.toNat = v := by
    rw [BitVec.ofInt_natCast, BitVec.ofNat_toNat, BitVec.setWidth_eq]
  have hlt : v.toNat < valueCount n := by simpa [valueCount, Nat.shiftLeft_eq] using v.isLt
  have hmono : valueCount n ≤ valueCount 63 := by
    have : 2 ^ n ≤ 2 ^ 63 := Nat.pow_le_pow_right (by decide) (by omega)
    simpa [valueCount, Nat.shiftLeft_eq] using this
  have := SpellsBits.number (.hex (Nat.lt_of_lt_of_le hlt hmono)) (by omega) (Int.ofNat_lt.mpr hlt)
  rwa [hv] at this

end Source

end RV32IM
