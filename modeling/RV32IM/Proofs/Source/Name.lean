import RV32IM.Proofs.Source.Statement
import RV32IM.Source.Assemble

-- Names in assembly text. A name is taken for a number only if a digit is what it begins with once
-- its underscores are gone. Any other name stands for itself: for a symbol where a statement jumps
-- to it or stores its address, and for its value once it is a constant.

namespace RV32IM

namespace Numeral

theorem digit?_eq_none {c : Char} (h : c.isDigit = false) : digit? 10 c = none := by
  have hd : ('0' ≤ c && c ≤ '9') = false := h
  unfold digit?
  simp only [hd, Bool.false_eq_true, if_false]
  apply if_neg
  split
  case isTrue  => omega
  case isFalse => split <;> omega

theorem isDigit_of_digits {limit v n : Nat} {cs : List Char} (h : digits 10 limit v cs = .ok n) :
    ∀ c ∈ cs, c.isDigit := by
  induction cs generalizing v
  case nil => nofun
  case cons c cs ih =>
    unfold digits at h
    split at h
    case h_1 => cases h
    case h_2 hc =>
      split at h
      case isFalse => cases h
      case isTrue =>
        refine List.forall_mem_cons.mpr ⟨?_, ih h⟩
        by_contra hd
        simp [digit?_eq_none (Bool.eq_false_iff.mpr hd)] at hc

theorem isDigit_of_natural {limit n : Nat} {cs : List Char} (h : natural 10 limit cs = .ok n) :
    ∀ c ∈ cs, c.isDigit ∨ c = '+' := by
  unfold natural at h
  split at h
  case h_1 | h_2 => cases h
  case h_3 => exact List.forall_mem_cons.mpr ⟨.inr rfl, fun c hc => .inl (isDigit_of_digits h c hc)⟩
  case h_4 => exact fun c hc => .inl (isDigit_of_digits h c hc)

end Numeral

namespace Source

open Numeral

section Ident

variable {name : Chars} {c : Char}

theorem toNat_lt_of_isIdentRest (h : isIdentRest c) : c.toNat < 128 := by
  simp only [isIdentRest, isIdentStart, Char.isAlpha, Char.isUpper, Char.isLower, Char.isDigit,
    Bool.or_eq_true, Bool.and_eq_true, decide_eq_true_eq, beq_iff_eq, ge_iff_le,
    UInt32.le_iff_toNat_le] at h
  rcases h with ((((h | h) | rfl) | rfl) | rfl) | h
  case inl.inl.inl.inr | inl.inl.inr | inl.inr => decide
  all_goals exact Nat.lt_of_le_of_lt h.right (by decide)

theorem isPlain_of_isIdentRest (h : isIdentRest c) : isPlain c ∧ c ≠ '-' ∧ c ≠ '+' := by
  have hall : ∀ n < 128, isIdentRest (Char.ofNat n) →
      isPlain (Char.ofNat n) ∧ Char.ofNat n ≠ '-' ∧ Char.ofNat n ≠ '+' := by decide
  simpa [h] using hall c.toNat (toNat_lt_of_isIdentRest h)

theorem isIdentRest_of_isIdent (h : isIdent name) : ∀ c ∈ name, isIdentRest c := by
  cases name
  case nil => cases h
  case cons c cs =>
    simp only [isIdent, Bool.and_eq_true, List.all_eq_true] at h
    refine List.forall_mem_cons.mpr ⟨?_, h.right⟩
    simp [isIdentRest, h.left]

theorem isPlain_of_isIdent (h : isIdent name) : ∀ c ∈ name, isPlain c :=
  fun c hc => (isPlain_of_isIdentRest (isIdentRest_of_isIdent h c hc)).left

theorem ne_nil_of_isIdent (h : isIdent name) : name ≠ [] := by
  rintro rfl
  cases h

theorem isOperand_of_isIdent (h : isIdent name) : IsOperand name :=
  .of_plain (ne_nil_of_isIdent h) (isPlain_of_isIdent h)

theorem trim_of_isIdent (h : isIdent name) : Text.trim name = name :=
  (Text.Trimmed.of_forall (isOperand_of_isIdent h).nonblank).trim_eq

theorem integer?_eq_none {cs : Chars} (h : c.isDigit = false) (hp : c ≠ '+') (hm : c ≠ '-') :
    integer? 10 (c :: cs) = none := by
  have hd : digits 10 (valueCount 63) 0 (c :: cs) = .error .invalidDigit := by
    rw [digits, digit?_eq_none h]
  rw [integer?_eq_digits (List.cons_ne_nil c cs) (by simpa using hp) (by simpa using hm), hd]
  rfl

theorem unsigned_eq_none {cs : Chars} (h : c.isDigit = false) (hp : c ≠ '+') (hm : c ≠ '-') :
    number?.unsigned (c :: cs) = none := by
  have h0 : c ≠ '0' := by
    rintro rfl
    cases h
  unfold number?.unsigned
  split
  case h_5 => exact integer?_eq_none h hp hm
  all_goals
    rename_i he
    exact absurd (List.cons.inj he).left h0

-- Underscores are no part of a number, so they do not keep a name from being one.
theorem number?_eq_none (h : isIdent name)
    (hd : ∀ c ∈ (name.filter (· ≠ '_')).head?, c.isDigit = false) : number? name = none := by
  have hsign c (hc : c ∈ name.filter (· ≠ '_')) : c ≠ '-' ∧ c ≠ '+' :=
    (isPlain_of_isIdentRest (isIdentRest_of_isIdent h c (List.mem_of_mem_filter hc))).right
  unfold number?
  rw [trim_of_isIdent h]
  generalize name.filter (· ≠ '_') = cs at hd hsign
  cases cs
  case nil => rfl
  case cons c cs =>
    have ⟨hm, hp⟩ := hsign c List.mem_cons_self
    simp only
    split
    case h_1 he => exact absurd (List.cons.inj he).left hm
    case h_2 he => exact absurd (List.cons.inj he).left hp
    case h_3 => exact unsigned_eq_none (hd c rfl) hp hm

end Ident

section Register

variable {cs : Chars} {r : Reg}

-- A text without white space that names a register.
structure Spells (cs : Chars) (r : Reg) : Prop where
  read     : register cs = .ok r
  nonblank : ∀ c ∈ cs, Text.isBlank c = false

theorem isPlain_of_toLower {c : Char} (h : isPlain c.toLower) : isPlain c := by
  by_cases hu : c.isUpper
  case pos =>
    have hr : isIdentRest c := by simp [isIdentRest, isIdentStart, Char.isAlpha, hu]
    exact (isPlain_of_isIdentRest hr).left
  case neg =>
    rwa [show c.toLower = c from dif_neg fun h => hu (decide_eq_true h)] at h

theorem isPlain_of_lower (h : ∀ c ∈ Text.lower cs, isPlain c) : ∀ c ∈ cs, isPlain c :=
  fun _ hc => isPlain_of_toLower (h _ (List.mem_map_of_mem hc))

theorem isPlain_of_ofNumber? (h : Reg.ofNumber? cs = some r) : ∀ c ∈ cs, isPlain c := by
  have hx : isPlain 'x' ∧ isPlain '+' := by decide
  have hdigit {c : Char} (h : c.isDigit) : isPlain c :=
    (isPlain_of_isIdentRest (by simp [isIdentRest, h])).left
  unfold Reg.ofNumber? at h
  split at h
  case h_2 => cases h
  case h_1 =>
    split at h
    case h_2 => cases h
    case h_1 hn =>
      refine List.forall_mem_cons.mpr ⟨hx.left, fun c hc => ?_⟩
      rcases isDigit_of_natural hn c hc with hd | rfl
      case inl => exact hdigit hd
      case inr => exact hx.right

theorem isPlain_of_ofAbiName? (h : Reg.ofAbiName? cs = some r) : ∀ c ∈ cs, isPlain c := by
  have hall : ∀ r ∈ Reg.all, r.abiName.toList.all isPlain := by decide
  unfold Reg.ofAbiName? at h
  split at h
  case isTrue hfp =>
    subst hfp
    exact List.all_eq_true.mp (by decide)
  case isFalse =>
    have hn := List.find?_some h
    have hp := hall r (List.mem_of_find?_eq_some h)
    simp only [decide_eq_true_eq] at hn
    exact List.all_eq_true.mp (hn ▸ hp)

theorem Spells.lower_read (h : Spells cs r) :
    (Reg.ofNumber? (Text.lower cs) <|> Reg.ofAbiName? (Text.lower cs)) = some r := by
  have hr : Reg.ofText? cs = some r := by
    have := h.read
    unfold register at this
    split at this
    case h_1 he => exact he.trans (congrArg some (Except.ok.inj this))
    case h_2 => cases this
  rwa [Reg.ofText?, (Text.Trimmed.of_forall h.nonblank).trim_eq] at hr

theorem Spells.isPlain (h : Spells cs r) : ∀ c ∈ cs, isPlain c := by
  have hr := h.lower_read
  apply isPlain_of_lower
  cases hn : Reg.ofNumber? (Text.lower cs)
  case some r' => exact isPlain_of_ofNumber? hn
  case none =>
    simp only [hn] at hr
    exact isPlain_of_ofAbiName? hr

theorem Spells.isOperand (h : Spells cs r) : IsOperand cs := by
  refine .of_plain ?_ h.isPlain
  rintro rfl
  have hnone : (Reg.ofNumber? (Text.lower []) <|> Reg.ofAbiName? (Text.lower [])) = none := by
    decide
  cases hnone.symm.trans h.lower_read

end Register

section Reference

variable {ctx : Context} {name : Chars} {head : String} {before : List Chars} {kind : RelocKind}
  {w : Word}

-- Whether a name is no number of 32 bits. There is no sign in a name.
def NoWord (name : Chars) : Prop :=
  ∀ v, number? name = some v → (valueCount 32 : Int) ≤ v

-- A statement that refers to a symbol with its last operand: its first word, its other operands,
-- and what it leaves to the linker, which is a kind of relocation and the word without the symbol.
inductive Refers : String → List Chars → RelocKind → Word → Prop
  | j : Refers "j" [] .jump (Instr.jump .jal .zero 0).encode
  | jal : Refers "jal" [] .jump (Instr.jump .jal .ra 0).encode
  | link {cs rd} : Spells cs rd → Refers "jal" [cs] .jump (Instr.jump .jal rd 0).encode
  | branch {op cs₁ cs₂ rs₁ rs₂} : op.format = .branch → Spells cs₁ rs₁ → Spells cs₂ rs₂ →
    Refers op.mnemonic [cs₁, cs₂] .branch (Instr.sources op rs₁ rs₂ 0).encode
  | beqz {cs rs} : Spells cs rs →
    Refers "beqz" [cs] .branch (Instr.sources .beq rs .zero 0).encode
  | bnez {cs rs} : Spells cs rs →
    Refers "bnez" [cs] .branch (Instr.sources .bne rs .zero 0).encode
  | word : Refers ".word" [] .word 0

theorem Refers.isStatement (h : Refers head before kind w) (hi : isIdent name) :
    IsStatement head.toList (before ++ [name]) where
  nonempty := by
    cases h
    case branch op _ _ _ _ _ _ _ => exact mnemonic_ne_nil op
    all_goals decide
  plain := by
    cases h
    case branch op _ _ _ _ _ _ _ => exact isPlain_mnemonic op
    all_goals exact List.all_eq_true.mp (by decide)
  operands := by
    have hn := isOperand_of_isIdent hi
    cases h
    case j | jal | word => simpa using hn
    case link h | beqz h | bnez h => simpa using ⟨h.isOperand, hn⟩
    case branch _ h₁ h₂ => simpa using ⟨h₁.isOperand, h₂.isOperand, hn⟩

theorem Refers.lower_head (h : Refers head before kind w) (hd : head ≠ ".word") :
    head.toList.head? ≠ some '.' ∧ Text.lower head.toList = head.toList := by
  cases h
  case word => contradiction
  case branch op _ _ _ _ _ _ _ => exact ⟨head?_mnemonic op, lower_mnemonic op⟩
  all_goals decide

variable (hi : isIdent name) (hn : NoWord name)
  (hc : ctx.constants.lookup (String.ofList name) = none)

include hi hn hc

theorem exists_word_error : ∃ e, ctx.word name = .error e := by
  unfold Context.word Context.value
  cases hv : number? name
  case none =>
    simp only [trim_of_isIdent hi, hc]
    exact ⟨_, rfl⟩
  case some v =>
    have hlt := hn v hv
    exact ⟨_, if_neg fun h => by omega⟩

theorem target_of_isIdent : ctx.target name = .ok (.label (String.ofList name)) := by
  have ⟨e, he⟩ := exists_word_error hi hn hc
  simp only [Context.target, trim_of_isIdent hi, he, Source.name, if_pos hi]
  rfl

theorem wordItem_of_isIdent : wordItem ctx name = .ok (.wordOf (String.ofList name)) := by
  have ⟨e, he⟩ := exists_word_error hi hn hc
  simp only [wordItem, he, if_pos hi]

-- Every reference but that of a data item is read as one instruction.
theorem mnemonic_of_refers (h : Refers head before kind w) (hd : head ≠ ".word") :
    ∃ stmt, mnemonic ctx head (before ++ [name]) = .ok [stmt] ∧
      ∀ s : Session, s.exec stmt = (s.record kind (String.ofList name)).word w := by
  have ht := target_of_isIdent hi hn hc
  cases h
  case word => contradiction
  case j =>
    refine ⟨.j (.label (String.ofList name)), ?_, fun _ => rfl⟩
    simp only [mnemonic, List.nil_append, ht]
    rfl
  case jal =>
    have hj : instruction ctx .jal [name] = (do return .jump .jal .ra (← ctx.target name)) := rfl
    rw [ht] at hj
    exact ⟨_, mnemonic_of_instruction hj, fun _ => rfl⟩
  case link cs rd h =>
    have hj : instruction ctx .jal [cs, name] =
      (do return .jump .jal (← register cs) (← ctx.target name)) := rfl
    rw [h.read, ht] at hj
    exact ⟨_, mnemonic_of_instruction hj, fun _ => rfl⟩
  case branch op cs₁ cs₂ rs₁ rs₂ hop h₁ h₂ =>
    have hb : instruction ctx op [cs₁, cs₂, name] = _ := instruction_branch hop cs₁ cs₂ name
    rw [h₁.read, h₂.read, ht] at hb
    exact ⟨_, mnemonic_of_instruction hb, fun s => s.exec_branch hop⟩
  case beqz cs rs h =>
    refine ⟨.branch .beq rs .zero (.label (String.ofList name)), ?_, fun _ => rfl⟩
    simp only [mnemonic, branchOnZero, List.singleton_append, ht, h.read]
    rfl
  case bnez cs rs h =>
    refine ⟨.branch .bne rs .zero (.label (String.ofList name)), ?_, fun _ => rfl⟩
    simp only [mnemonic, branchOnZero, List.singleton_append, ht, h.read]
    rfl

-- A name that is no number is left to the linker.
theorem line_of_refers (h : Refers head before kind w) :
    ∃ stmt, line ctx (statementText head.toList (before ++ [name])) = { stmts := [stmt] } ∧
      ∀ s : Session, s.exec stmt = (s.record kind (String.ofList name)).word w := by
  have hs := h.isStatement hi
  by_cases hword : head = ".word"
  case neg =>
    have ⟨stmt, hm, he⟩ := mnemonic_of_refers hi hn hc h hword
    have ⟨hd, hl⟩ := h.lower_head hword
    exact ⟨stmt, line_mnemonic hs hd hl hm, he⟩
  case pos =>
    cases h
    case word =>
      have hi : items (wordItem ctx) [name] = { stmts := [.wordOf (String.ofList name)] } := by
        simp only [items, wordItem_of_isIdent hi hn hc]
      refine ⟨_, (line_word hs).trans hi, fun _ => rfl⟩
    case branch op _ _ _ _ _ _ _ =>
      have := hword ▸ head?_mnemonic op
      contradiction
    all_goals contradiction

omit hc in
theorem step_of_refers {st : State} {number : Nat}
    (hc : st.constants.lookup (String.ofList name) = none) (h : Refers head before kind w) :
    st.step number (statementText head.toList (before ++ [name])) =
      { st with session := (st.session.record kind (String.ofList name)).word w } := by
  have hc : (Context.mk st.constants st.session.room).constants.lookup _ = none := hc
  have ⟨stmt, hl, hs⟩ := line_of_refers hi hn hc h
  simp [State.step, hl, Session.run, hs]

end Reference

section Constant

variable {ctx : Context} {name value cs : Chars} {v : Int} {st : State}

theorem value_of_lookup (hi : isIdent name) (hn : number? name = none)
    (h : ctx.constants.lookup (String.ofList name) = some v) : ctx.value name = .ok v := by
  rw [Context.value, hn, trim_of_isIdent hi]
  simp only [h]

-- The text that names a constant.
def constantText (name value : Chars) : Chars :=
  name ++ ' ' :: ("equ".toList ++ ' ' :: value)

theorem line_constantText (hi : isIdent name) (hne : value ≠ []) (hp : ∀ c ∈ value, isPlain c)
    (hv : ctx.value value = .ok v) :
    line ctx (constantText name value) = { constant := some (String.ofList name, v) } := by
  have hname := isOperand_of_isIdent hi
  have hvalue := IsOperand.of_plain hne hp
  have hkey : IsOperand "equ".toList := .of_plain (by decide) (List.all_eq_true.mp (by decide))
  have hrest : Text.Trimmed ("equ".toList ++ ' ' :: value) := by
    have := (Text.Trimmed.of_forall hkey.nonblank).append (.of_forall hvalue.nonblank)
      hkey.nonempty hne [' ']
    rwa [List.append_assoc] at this
  have htext : Text.Trimmed (constantText name value) := by
    have := (Text.Trimmed.of_forall hname.nonblank).append hrest hname.nonempty (by simp) [' ']
    rwa [List.append_assoc] at this
  have hinert : ∀ c ∈ constantText name value, isInert c := by
    have hs : isInert ' ' := rfl
    have := hname.inert
    have := hvalue.inert
    have := hkey.inert
    unfold constantText
    grind
  have hhead : headAndRest (constantText name value) = (name, "equ".toList ++ ' ' :: value) := by
    have hb : ∀ c ∈ (' ' :: ("equ".toList ++ ' ' :: value)).head?, Text.isBlank c := by
      rintro c ⟨⟩
      rfl
    rw [constantText, headAndRest_append hname.nonblank hb, Text.trim_cons_of_isBlank rfl,
      hrest.trim_eq]
  have hconst : constantValue? ("equ".toList ++ ' ' :: value) = some value := by
    rw [constantValue?, Text.splitFirst?_append hkey.nonblank rfl]
    rfl
  rw [line_eq_statement hinert htext (by simp [constantText])]
  simp only [statement, hhead, hconst, if_pos hi, hv]

-- The name that a line gives to a constant, if it gives one.
def constantName? (cs : Chars) : Option Chars :=
  let (head, rest) := headAndRest (labels (Text.trim (stripComment .outside cs))).snd
  (constantValue? rest).map fun _ => head

theorem constant_ofRead (r : Read (List Stmt)) : (Reading.ofRead r).constant = none := by
  cases r <;> rfl

theorem constant_items (read : Chars → Read Stmt) (ops : List Chars) :
    (items read ops).constant = none := by
  induction ops
  case nil => rfl
  case cons op ops ih =>
    unfold items
    split
    case h_1 => rfl
    case h_2 => exact ih

theorem constant_directive (mn : String) (rest : Chars) :
    (directive ctx mn rest).constant = none := by
  unfold directive
  split <;> first | exact constant_items .. | exact constant_ofRead _ | rfl

theorem constantName?_of_line {x : String} (h : (line ctx cs).constant = some (x, v)) :
    constantName? cs = some x.toList ∧ isIdent x.toList := by
  simp only [line] at h
  split at h
  case isTrue => cases h
  case isFalse =>
    simp only [statement] at h
    simp only [constantName?]
    split at h
    case h_1 hvalue =>
      split at h
      case isFalse => cases h
      case isTrue hi =>
        split at h
        case h_2 => cases h
        case h_1 =>
          cases h
          simp [hvalue, hi]
    case h_2 =>
      split at h
      case isTrue  => rw [constant_directive] at h; cases h
      case isFalse => rw [constant_ofRead] at h; cases h

theorem lookup_step (h : constantName? cs ≠ some name) (number : Nat) :
    (st.step number cs).constants.lookup (String.ofList name) =
      st.constants.lookup (String.ofList name) := by
  simp only [State.step]
  cases hc : (line ⟨st.constants, st.session.room⟩ cs).constant
  case none => rfl
  case some p =>
    obtain ⟨x, v⟩ := p
    have hne : (String.ofList name == x) = false := by
      have ⟨hx, _⟩ := constantName?_of_line hc
      refine beq_eq_false_iff_ne.mpr fun he => h ?_
      rw [hx, ← he, String.toList_ofList]
    simp [List.lookup_cons, hne]

theorem lookup_steps {ls : List Chars} (h : ∀ l ∈ ls, constantName? l ≠ some name) (number : Nat) :
    (st.steps number ls).constants.lookup (String.ofList name) =
      st.constants.lookup (String.ofList name) := by
  induction ls generalizing st number
  case nil => rfl
  case cons l ls ih =>
    have ⟨hl, hls⟩ := List.forall_mem_cons.mp h
    rw [State.steps, ih hls, lookup_step hl]

end Constant

-- A name that is no number is the name of a symbol, or of a constant that an earlier line named,
-- wherever it is used.
theorem name_symbolic {name : Chars} (hi : isIdent name) :
    ((∀ c ∈ (name.filter (· ≠ '_')).head?, c.isDigit = false) → number? name = none) ∧
      (NoWord name → ∀ head before kind w, Refers head before kind w → ∀ (st : State) number,
        st.constants.lookup (String.ofList name) = none →
        st.step number (statementText head.toList (before ++ [name])) =
          { st with session := (st.session.record kind (String.ofList name)).word w }) ∧
      (number? name = none → ∀ (st : State) number value v,
        value ≠ [] → (∀ c ∈ value, isPlain c) →
        Context.value ⟨st.constants, st.session.room⟩ value = .ok v →
        ∀ number' ls, (∀ l ∈ ls, constantName? l ≠ some name) →
        let st' := (st.step number (constantText name value)).steps number' ls
        ∀ room, Context.value ⟨st'.constants, room⟩ name = .ok v) := by
  refine ⟨number?_eq_none hi, fun hn head before kind w h st number hc => ?symbol, ?constant⟩
  case symbol => exact step_of_refers hi hn hc h
  case constant =>
    intro hn st number value v hne hp hv number' ls hls st' room
    refine value_of_lookup hi hn ?_
    have hl := line_constantText hi hne hp hv
    simp only [st', lookup_steps hls, State.step, hl, Option.toList_some, List.singleton_append,
      List.lookup_cons_self]

theorem name_symbolic_loop :
    isIdent "loop".toList ∧ number? "loop".toList = none ∧
      (State.step ⟨.start 0, []⟩ 1 "j loop".toList).session.relocations =
        #[⟨0, .jump, "loop"⟩] := by
  have hi : isIdent "loop".toList := by decide
  have ⟨hnumber, hsymbol, _⟩ := name_symbolic hi
  have hn : number? "loop".toList = none := by
    refine hnumber ?_
    rintro c ⟨⟩
    rfl
  have hs := hsymbol (fun v hv => nomatch hn.symm.trans hv) "j" [] _ _ .j ⟨.start 0, []⟩ 1 rfl
  have ht : "j loop".toList = statementText "j".toList ([] ++ ["loop".toList]) := rfl
  refine ⟨hi, hn, ?_⟩
  rw [ht, hs]
  rfl

-- A name can be made of underscores and digits alone, and then it is a number.
theorem name_number :
    isIdent "_4".toList ∧ number? "_4".toList = some 4 ∧
      (State.step ⟨.start 0, []⟩ 1 "j _4".toList).session.relocations = #[] ∧
      (State.step ⟨.start 0, []⟩ 1 "j _4".toList).session.image = #[0x6F, 0, 0x40, 0] := by
  have hi : isIdent "_4".toList := by decide
  have hs := Refers.isStatement .j hi
  have ht : "j _4".toList = statementText "j".toList ([] ++ ["_4".toList]) := rfl
  have hm : mnemonic ⟨[], (Session.start 0).room⟩ "j" ([] ++ ["_4".toList]) =
      .ok [.j (.offset 4)] :=
    rfl
  have hl := line_mnemonic hs (by decide) rfl hm
  refine ⟨hi, by decide, ?_, ?_⟩
  all_goals
    rw [ht, State.step, hl]
    rfl

end Source

end RV32IM
