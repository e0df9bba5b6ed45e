import RV32IM.Proofs.Source.Scan
import RV32IM.Proofs.Text.Numeral
import RV32IM.Instr.Text
import RV32IM.Source.Operand

-- Operands that are read back from their text: numbers in each of the forms that are printed,
-- registers, and operands in memory. What is read does not depend on the constants of the context,
-- as no printed number is the name of one.

namespace RV32IM

open Numeral

namespace Source

theorem isPlain_of_isNumeral {c : Char} (h : isNumeral c) : isPlain c ∧ c ≠ '_' := by
  have hall : "0123456789abcdefx+-".toList.all fun c => isPlain c && c != '_' := by decide
  simpa using List.all_eq_true.mp hall c (by simpa [isNumeral] using h)

section Number

variable {cs : Chars} {n : Nat}

theorem trimmed_of_isNumeral (h : ∀ c ∈ cs, isNumeral c) : Text.Trimmed cs :=
  .of_forall fun c hc => isBlank_of_isPlain (isPlain_of_isNumeral (h c hc)).left

theorem filter_trim_of_isNumeral (h : ∀ c ∈ cs, isNumeral c) :
    (Text.trim cs).filter (· ≠ '_') = cs := by
  rw [(trimmed_of_isNumeral h).trim_eq, List.filter_eq_self]
  exact fun c hc => decide_eq_true (isPlain_of_isNumeral (h c hc)).right

theorem toNat_lt_valueCount (w : Word) : w.toNat < valueCount 63 := by
  have := w.isLt
  simp only [valueCount]
  omega

theorem natAbs_toInt_lt (v : Word) : v.toInt.natAbs < valueCount 63 := by
  have := BitVec.le_toInt v
  have := BitVec.toInt_lt (x := v)
  simp only [valueCount]
  omega

theorem unsigned_toDigits (hn : n < valueCount 63) :
    number?.unsigned (Nat.toDigits 10 n) = some (n : Int) := by
  have hd : ∀ c ∈ Nat.toDigits 10 n, c.isDigit :=
    forall_mem_toDigits (by decide) (by decide) n
  unfold number?.unsigned
  split
  case h_5 => exact integer?_toDigits (by decide) (by decide) hn 0
  all_goals
    rename_i h
    rw [h] at hd
    simp at hd

theorem unsigned_hex (cs : Chars) : number?.unsigned ('0' :: 'x' :: cs) = integer? 16 cs :=
  rfl

theorem number?_decimal {v : Int} (hv : v.natAbs < valueCount 63) :
    number? (decimal v).toList = some v := by
  have hf := filter_trim_of_isNumeral fun _ hc => isNumeral_decimal v hc
  have hu := unsigned_toDigits hv
  unfold number?
  rw [hf]
  cases v
  case ofNat n =>
    have hd : ∀ c ∈ Nat.toDigits 10 n, c.isDigit := forall_mem_toDigits (by decide) (by decide) n
    simp only [decimal, String.toList_ofList]
    split
    case h_1 h | h_2 h => rw [h] at hd; simp at hd
    case h_3 => exact hu
  case negSucc n =>
    rw [Int.natAbs_negSucc] at hu
    simp only [decimal, String.toList_ofList, hu, Option.map_some]
    split
    case isTrue => omega
    case isFalse => rfl

theorem number?_signed {v : Int} (hv : v.natAbs < valueCount 63) :
    number? (signed v).toList = some v := by
  unfold signed
  split
  case isFalse => exact number?_decimal hv
  case isTrue h =>
    have hf := filter_trim_of_isNumeral fun _ hc => isNumeral_signed v hc
    rw [signed, if_pos h] at hf
    unfold number?
    rw [hf]
    cases v
    case negSucc n => contradiction
    case ofNat n =>
      have hp : ("+" ++ decimal (.ofNat n)).toList = '+' :: Nat.toDigits 10 n := by
        simp [decimal]
      rw [hp]
      exact unsigned_toDigits hv

theorem number?_hex (hn : n < valueCount 63) : number? ("0x" ++ hex n).toList = some (n : Int) := by
  have hf := filter_trim_of_isNumeral fun _ hc => isNumeral_hex n hc
  have hi : integer? 16 _ = _ := integer?_toDigits (by decide) (by decide) hn 0
  unfold number?
  rw [hf]
  simpa [hex, unsigned_hex] using hi

theorem number?_address (w : Word) : number? (address w).toList = some (w.toNat : Int) := by
  have hf := filter_trim_of_isNumeral fun _ hc => isNumeral_address w hc
  have hi k : integer? 16 (List.replicate k '0' ++ Nat.toDigits 16 w.toNat) = _ :=
    integer?_toDigits (by decide) (by decide) (toNat_lt_valueCount w) k
  unfold number?
  rw [hf]
  simpa [address, hexPadded, unsigned_hex] using hi _

end Number

namespace Context

variable {ctx : Context} {cs : Chars} {v : Word}

theorem word_eq_ok {i : Int} (h : number? cs = some i) (hl : -2 ^ 31 ≤ i) (hu : i < 2 ^ 32) :
    ctx.word cs = .ok (BitVec.ofInt 32 i) := by
  rw [word, value, h]
  exact if_pos ⟨hl, hu⟩

theorem word_toInt (h : number? cs = some v.toInt) : ctx.word cs = .ok v := by
  have hl := BitVec.le_toInt v
  have hu := BitVec.toInt_lt (x := v)
  rw [word_eq_ok h hl (by omega), BitVec.ofInt_toInt]

theorem word_toNat (h : number? cs = some (v.toNat : Int)) : ctx.word cs = .ok v := by
  have hv := v.isLt
  rw [word_eq_ok h (by omega) (by omega), BitVec.ofInt_natCast, BitVec.ofNat_toNat,
    BitVec.setWidth_eq]

theorem word_decimal (v : Word) : ctx.word (decimal v.toInt).toList = .ok v :=
  word_toInt (number?_decimal (natAbs_toInt_lt v))

theorem word_signed (v : Word) : ctx.word (signed v.toInt).toList = .ok v :=
  word_toInt (number?_signed (natAbs_toInt_lt v))

theorem word_hex (v : Word) : ctx.word ("0x" ++ hex v.toNat).toList = .ok v :=
  word_toNat (number?_hex (toNat_lt_valueCount v))

theorem word_address (v : Word) : ctx.word (address v).toList = .ok v :=
  word_toNat (number?_address v)

theorem unsignedWord_decimal (h : 0 ≤ v.toInt) (e : SourceError) :
    ctx.unsignedWord (decimal v.toInt).toList e = .ok v := by
  have hu := BitVec.toInt_lt (x := v)
  rw [unsignedWord, value, number?_decimal (natAbs_toInt_lt v)]
  have hc : 0 ≤ v.toInt ∧ v.toInt < valueCount 32 := ⟨h, by rw [valueCount_word]; omega⟩
  simp only [bind, Except.bind, if_pos hc, BitVec.ofInt_toInt]
  rfl

theorem argument?_eq_none {name : Chars} (h : cs.head? ≠ some '%') :
    argument? ('%' :: name) cs = none := by
  have hp : ('%' :: name ++ ['(']).isPrefixOf cs = false := by
    cases cs
    case nil => rfl
    case cons c cs =>
      have hc : '%' ≠ c := fun he => h (he ▸ rfl)
      simp [List.isPrefixOf, hc]
  rw [argument?, Text.dropStart?, hp]
  rfl

theorem immediate_eq (h : ∀ c ∈ cs, isNumeral c) :
    ctx.immediate cs = (ctx.word cs).map .value := by
  have hp : cs.head? ≠ some '%' := fun he => by
    have := h _ (List.mem_of_mem_head? he)
    contradiction
  have hhi : argument? "%pcrel_hi".toList cs = none := argument?_eq_none hp
  have hlo : argument? "%pcrel_lo".toList cs = none := argument?_eq_none hp
  simp only [immediate, (trimmed_of_isNumeral h).trim_eq, hhi, hlo]

theorem target_eq (h : ∀ c ∈ cs, isNumeral c) (hv : ctx.word cs = .ok v) :
    ctx.target cs = .ok (.offset v) := by
  rw [target, (trimmed_of_isNumeral h).trim_eq, hv]

end Context

theorem register_text (r : Reg) : register r.text.toList = .ok r := by
  have h : ∀ i : BitVec 5, Reg.ofText? (Reg.text ⟨i⟩).toList = some ⟨i⟩ := by decide
  rw [register, h r.index]

theorem isPlain_text (r : Reg) : ∀ c ∈ r.text.toList, isPlain c := by
  have h : ∀ i : BitVec 5, (Reg.text ⟨i⟩).toList.all isPlain := by decide
  exact List.all_eq_true.mp (h r.index)

@[simp]
theorem isOperand_text (r : Reg) : IsOperand r.text.toList :=
  .of_plain (by simp [Reg.text]) (isPlain_text r)

theorem toList_memoryText (base : Reg) (off : Word) :
    (Instr.memoryText base off).toList =
      (decimal off.toInt).toList ++ '(' :: base.text.toList ++ [')'] := by
  simp [Instr.memoryText]

theorem memoryOperand?_memoryText (base : Reg) (off : Word) :
    memoryOperand? (Instr.memoryText base off).toList =
      some ((decimal off.toInt).toList, base.text.toList) := by
  have hb : '(' ∉ base.text.toList := fun h => by
    have := isPlain_text base _ h
    contradiction
  have hr := Text.Trimmed.of_forall fun c hc => isBlank_of_isPlain (isPlain_text base c hc)
  have hd := trimmed_of_isNumeral fun _ hc => isNumeral_decimal off.toInt hc
  rw [toList_memoryText, memoryOperand?_append hb, hr.trim_eq, hd.trim_eq]

theorem decimal_ne_nil (v : Int) : (decimal v).toList ≠ [] := by
  cases v <;> simp [decimal, Nat.toDigits_ne_nil]

theorem isOperand_of_isNumeral {cs : Chars} (hn : cs ≠ []) (h : ∀ c ∈ cs, isNumeral c) :
    IsOperand cs :=
  .of_plain hn fun c hc => (isPlain_of_isNumeral (h c hc)).left

@[simp]
theorem isOperand_memoryText (base : Reg) (off : Word) :
    IsOperand (Instr.memoryText base off).toList := by
  have hd c (hc : c ∈ (decimal off.toInt).toList) : isPlain c :=
    (isPlain_of_isNumeral (isNumeral_decimal _ hc)).left
  rw [toList_memoryText]
  exact .memory hd (isPlain_text base)

@[simp]
theorem isOperand_decimal (v : Int) : IsOperand (decimal v).toList :=
  isOperand_of_isNumeral (decimal_ne_nil v) fun _ hc => isNumeral_decimal v hc

theorem signed_ne_nil (v : Int) : (signed v).toList ≠ [] := by
  unfold signed
  split
  case isTrue => simp
  case isFalse => exact decimal_ne_nil v

@[simp]
theorem isOperand_signed (v : Int) : IsOperand (signed v).toList :=
  isOperand_of_isNumeral (signed_ne_nil v) fun _ hc => isNumeral_signed v hc

@[simp]
theorem isOperand_hex (n : Nat) : IsOperand ("0x" ++ hex n).toList :=
  isOperand_of_isNumeral (by simp) fun _ hc => isNumeral_hex n hc

theorem isOperand_operandTexts (i : Instr) :
    ∀ o ∈ i.operandTexts.map String.toList, IsOperand o := by
  unfold Instr.operandTexts
  split
  case h_2 => split <;> simp [-String.toList_append]
  all_goals simp [-String.toList_append]

namespace Context

variable {ctx : Context}

theorem immediate_decimal (v : Word) : ctx.immediate (decimal v.toInt).toList = .ok (.value v) := by
  rw [immediate_eq fun _ hc => isNumeral_decimal _ hc, word_decimal]
  rfl

theorem target_signed (v : Word) : ctx.target (signed v.toInt).toList = .ok (.offset v) :=
  target_eq (fun _ hc => isNumeral_signed _ hc) (word_signed v)

theorem immediate_hex (v : Word) : ctx.immediate ("0x" ++ hex v.toNat).toList = .ok (.value v) := by
  rw [immediate_eq fun _ hc => isNumeral_hex _ hc, word_hex]
  rfl

theorem registerAndMemory_text (form : String) (r base : Reg) (off : Word) :
    ctx.registerAndMemory form [r.text.toList, (Instr.memoryText base off).toList] =
      .ok (r, base, .value off) := by
  have hn : (decimal off.toInt).toList.isEmpty = false := by
    simpa using decimal_ne_nil off.toInt
  simp only [registerAndMemory, memoryOperand?_memoryText, register_text, hn,
    Bool.false_eq_true, if_false, immediate_decimal]
  rfl

end Context

end Source

end RV32IM
