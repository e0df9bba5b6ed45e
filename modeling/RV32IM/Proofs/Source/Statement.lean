import RV32IM.Proofs.Session.Emission
import RV32IM.Proofs.Source.Operand
import RV32IM.Source.Statement

-- Statements that are read back from their text. A printed instruction gives the one statement that
-- emits its operation with its operands, whatever the order in which its format prints them, and
-- so do the texts of words that are no instruction.

namespace RV32IM

open Numeral

namespace Source

variable {ctx : Context} {i : Instr}

theorem toInt_nonneg_of_lt {v : Word} (h : v < 32) : 0 ≤ v.toInt := by
  have hn : v.toNat < 32 := h
  rw [BitVec.toInt_eq_toNat_of_lt (by omega)]
  omega

-- What the operands of an instruction are read for, by its format.
section Formats

variable {op : Op} {ops : List Chars}

theorem instruction_register (h : op.format = .reg) (a b c : Chars) :
    instruction ctx op [a, b, c] =
      (do return .register op (← register a) (← register b) (← register c) h) := by
  cases op
  all_goals first | contradiction | rfl

theorem instruction_immediate (h : op.format = .imm) (hj : op ≠ .jalr) (a b t : Chars) :
    instruction ctx op [a, b, t] =
      (do return .immediate op (← register a) (← register b) (← ctx.immediate t) (.imm h)) := by
  cases op
  all_goals first | contradiction | rfl

theorem instruction_jalr (h : ops.length ≠ 1) :
    instruction ctx .jalr ops =
      (do
        let (rd, rs1, imm) ← ctx.registerAndMemory (usage .jalr) ops
        return .immediate .jalr rd rs1 imm) := by
  match ops with
  | [] | _ :: _ :: _ => rfl
  | [_] => contradiction

theorem instruction_load (h : op.format = .load) (ops : List Chars) :
    instruction ctx op ops =
      (do
        let (rd, rs1, imm) ← ctx.registerAndMemory (usage op) ops
        return .immediate op rd rs1 imm (.load h)) := by
  cases op
  all_goals first | contradiction | rfl

theorem instruction_store (h : op.format = .store) (ops : List Chars) :
    instruction ctx op ops =
      (do
        let (src, base, imm) ← ctx.registerAndMemory (usage op) ops
        return .store op src base imm h) := by
  cases op
  all_goals first | contradiction | rfl

theorem instruction_shift (h : op.format = .shift) (a b t : Chars) :
    instruction ctx op [a, b, t] =
      (do
        let v ← ctx.unsignedWord t (.shiftAmount (String.ofList t))
        return .shift op (← register a) (← register b) v h) := by
  cases op
  all_goals first | contradiction | rfl

theorem instruction_branch (h : op.format = .branch) (a b t : Chars) :
    instruction ctx op [a, b, t] =
      (do
        let target ← ctx.target t
        return .branch op (← register a) (← register b) target h) := by
  cases op
  all_goals first | contradiction | rfl

theorem instruction_upper (h : op.format = .upper) (a t : Chars) :
    instruction ctx op [a, t] =
      (do return .upper op (← register a) (← ctx.immediate t) h) := by
  cases op
  all_goals first | contradiction | rfl

theorem instruction_jump (h : op.format = .jump) (a t : Chars) :
    instruction ctx op [a, t] = (do return .jump op (← register a) (← ctx.target t) h) ∧
      instruction ctx op [t] = (do return .jump op .ra (← ctx.target t) h) := by
  cases op
  all_goals first | contradiction | exact ⟨rfl, rfl⟩

theorem instruction_bare (h : op.format = .fence ∨ op.format = .system) :
    instruction ctx op [] = .ok (.bare op) := by
  cases op
  all_goals first | rfl | simp [Op.format, Op.coding] at h

end Formats

-- A printed instruction is read, by cases on the format in which its operands are printed.
theorem instruction_operandTexts (hi : i.op.format.Holds i.imm) :
    instruction ctx i.op (i.operandTexts.map String.toList) =
      .ok (.ofOperands i.op i.rd i.rs1 i.rs2 i.operand) := by
  obtain ⟨op, rd, rs1, rs2, imm⟩ := i
  simp only at hi
  cases hf : op.format
  all_goals simp only [Instr.operandTexts, Instr.operand, hf, List.map_cons, List.map_nil] at hi ⊢
  case reg =>
    simp only [instruction_register hf, register_text, Stmt.ofOperands_reg _ _ _ _ hf]
    rfl
  case imm =>
    rw [Stmt.ofOperands_imm _ _ _ _ hf]
    by_cases hj : op = .jalr
    case pos =>
      subst hj
      simp only [if_true, List.map_cons, List.map_nil]
      rw [instruction_jalr (by simp), ctx.registerAndMemory_text]
      rfl
    case neg =>
      simp only [if_neg hj, List.map_cons, List.map_nil, instruction_immediate hf hj,
        register_text, ctx.immediate_decimal]
      rfl
  case load =>
    rw [instruction_load hf, ctx.registerAndMemory_text, Stmt.ofOperands_load _ _ _ _ hf]
    rfl
  case store =>
    rw [instruction_store hf, ctx.registerAndMemory_text, Stmt.ofOperands_store _ _ _ _ hf]
    rfl
  case shift =>
    simp only [instruction_shift hf, ctx.unsignedWord_decimal (toInt_nonneg_of_lt hi),
      register_text, Stmt.ofOperands_shift _ _ _ _ hf]
    rfl
  case branch =>
    simp only [instruction_branch hf, register_text, ctx.target_signed,
      Stmt.ofOperands_branch _ _ _ _ hf]
    rfl
  case upper =>
    simp only [instruction_upper hf, register_text, ctx.immediate_hex,
      Stmt.ofOperands_upper _ _ _ _ hf]
    rfl
  case jump =>
    simp only [(instruction_jump hf _ _).left, register_text, ctx.target_signed,
      Stmt.ofOperands_jump _ _ _ _ hf]
    rfl
  case system =>
    rw [instruction_bare (.inr hf), Stmt.ofOperands_bare _ _ _ _ (.inl hf)]
  case fence =>
    rw [instruction_bare (.inl hf), Stmt.ofOperands_bare _ _ _ _ (.inr hf)]

theorem ofMnemonic?_mnemonic (op : Op) : Op.ofMnemonic? op.mnemonic.toList = some op := by
  have h : ∀ op ∈ Op.all, Op.ofMnemonic? op.mnemonic.toList = some op := by decide +kernel
  exact h op op.mem_all

-- The names of the pseudo-instructions, and of the statement that halts.
def pseudoNames : List String :=
  ["invalid", "nop", "mv", "li", "la", "call", "j", "jr", "ret", "beqz", "bnez"]

theorem mnemonic_not_mem_pseudoNames (op : Op) : op.mnemonic ∉ pseudoNames := by
  have h : ∀ op ∈ Op.all, op.mnemonic ∉ pseudoNames := by decide +kernel
  exact h op op.mem_all

theorem mnemonic_of_not_mem_pseudoNames {mn : String} (h : mn ∉ pseudoNames) (ops : List Chars) :
    mnemonic ctx mn ops =
      match Op.ofMnemonic? mn.toList with
      | some op => do return [← instruction ctx op ops]
      | none => throw (.mnemonic mn) := by
  simp only [pseudoNames, List.mem_cons, not_or] at h
  unfold mnemonic
  split
  case h_21 => rfl
  all_goals grind

theorem mnemonic_eq (op : Op) (ops : List Chars) :
    mnemonic ctx op.mnemonic ops = (do return [← instruction ctx op ops]) := by
  rw [mnemonic_of_not_mem_pseudoNames (mnemonic_not_mem_pseudoNames op), ofMnemonic?_mnemonic]

theorem mnemonic_of_instruction {op : Op} {ops : List Chars} {stmt : Stmt}
    (h : instruction ctx op ops = .ok stmt) : mnemonic ctx op.mnemonic ops = .ok [stmt] := by
  rw [mnemonic_eq, h]
  rfl

theorem isPlain_mnemonic (op : Op) : ∀ c ∈ op.mnemonic.toList, isPlain c := by
  have h : op.mnemonic.toList.all isPlain := by cases op <;> decide
  exact List.all_eq_true.mp h

theorem lower_mnemonic (op : Op) : Text.lower op.mnemonic.toList = op.mnemonic.toList := by
  cases op <;> decide

theorem head?_mnemonic (op : Op) : op.mnemonic.toList.head? ≠ some '.' := by
  cases op <;> decide

theorem mnemonic_ne_nil (op : Op) : op.mnemonic.toList ≠ [] := by
  cases op <;> decide

-- A comma follows each operand but the last, so none of them can be the keyword that names a
-- constant.
theorem constantValue?_intercalate {ops : List Chars} (h : ∀ o ∈ ops, IsOperand o) :
    constantValue? ([',', ' '].intercalate ops) = none := by
  cases ops
  case nil => rfl
  case cons o os =>
    have ho := h o List.mem_cons_self
    cases os
    case nil =>
      rw [List.intercalate_singleton, constantValue?, Text.splitFirst?_eq_none ho.nonblank]
    case cons o' os =>
      have hb : ∀ c ∈ o ++ [','], Text.isBlank c = false := by
        have hc : Text.isBlank ',' = false := rfl
        have := ho.nonblank
        grind
      have hs : [',', ' '].intercalate (o :: o' :: os) =
          (o ++ [',']) ++ ' ' :: [',', ' '].intercalate (o' :: os) := by
        rw [List.intercalate_cons_cons]
        simp
      have hk : Text.lower (o ++ [',']) ≠ "equ".toList := fun he => by
        have hl := congrArg List.getLast? he
        simp [Text.lower] at hl
      rw [hs, constantValue?, Text.splitFirst?_append hb rfl]
      exact if_neg hk

theorem line_eq_statement {cs : Chars} (hi : ∀ c ∈ cs, isInert c) (ht : Text.Trimmed cs)
    (hn : cs ≠ []) : line ctx cs = statement ctx cs := by
  have he : cs.isEmpty = false := by simpa using hn
  simp [line, stripComment_eq_self hi, ht.trim_eq, labels_eq_nil hi, he]

theorem line_statementText {head : Chars} {ops : List Chars} (h : IsStatement head ops) :
    line ctx (statementText head ops) =
      if head.head? = some '.' then
        directive ctx (String.ofList (Text.lower head)) ([',', ' '].intercalate ops)
      else .ofRead (mnemonic ctx (String.ofList (Text.lower head)) ops) := by
  rw [line_eq_statement h.inert h.trimmed h.text_ne_nil]
  simp only [statement, h.headAndRest, constantValue?_intercalate h.operands,
    operands_intercalate h.operands]

theorem line_mnemonic {mn : String} {ops : List Chars} {stmts : List Stmt}
    (h : IsStatement mn.toList ops) (hd : mn.toList.head? ≠ some '.')
    (hl : Text.lower mn.toList = mn.toList) (hm : mnemonic ctx mn ops = .ok stmts) :
    line ctx (statementText mn.toList ops) = { stmts } := by
  rw [line_statementText h, if_neg hd, hl, String.ofList_toList, hm]
  rfl

theorem toList_text (i : Instr) :
    i.text.toList = statementText i.op.mnemonic.toList (i.operandTexts.map String.toList) := by
  unfold Instr.text
  cases i.operandTexts
  case nil  => rfl
  case cons => simp [statementText]

theorem isStatement_text (i : Instr) :
    IsStatement i.op.mnemonic.toList (i.operandTexts.map String.toList) where
  nonempty := mnemonic_ne_nil i.op
  plain    := isPlain_mnemonic i.op
  operands := isOperand_operandTexts i

theorem line_text (hi : i.op.format.Holds i.imm) :
    line ctx i.text.toList = { stmts := [.ofOperands i.op i.rd i.rs1 i.rs2 i.operand] } := by
  rw [toList_text]
  exact line_mnemonic (isStatement_text i) (head?_mnemonic i.op) (lower_mnemonic i.op)
    (mnemonic_of_instruction (instruction_operandTexts hi))

theorem isStatement_invalid : IsStatement "invalid".toList [] where
  nonempty := by decide
  plain    := List.all_eq_true.mp (by decide)
  operands := nofun

theorem line_invalid : line ctx "invalid".toList = { stmts := [.halt] } :=
  line_mnemonic isStatement_invalid (by decide) rfl rfl

theorem toList_data (w : Word) :
    (".word " ++ address w).toList = statementText ".word".toList [(address w).toList] := by
  simp [statementText]

theorem isStatement_data (w : Word) : IsStatement ".word".toList [(address w).toList] where
  nonempty := by decide
  plain    := List.all_eq_true.mp (by decide)
  operands := by
    have ha : IsOperand (address w).toList :=
      isOperand_of_isNumeral (by simp [address]) fun _ hc => isNumeral_address w hc
    simpa using ha

theorem directive_word (rest : Chars) :
    directive ctx ".word" rest = items (wordItem ctx) (operands rest) :=
  rfl

theorem line_word {ops : List Chars} (h : IsStatement ".word".toList ops) :
    line ctx (statementText ".word".toList ops) = items (wordItem ctx) ops := by
  have hd : ".word".toList.head? = some '.' := rfl
  have hl : String.ofList (Text.lower ".word".toList) = ".word" := rfl
  rw [line_statementText h, if_pos hd, hl, directive_word, operands_intercalate h.operands]

theorem line_data (w : Word) :
    line ctx (".word " ++ address w).toList = { stmts := [.word w] } := by
  rw [toList_data, line_word (isStatement_data w)]
  simp only [items, wordItem, ctx.word_address]

end Source

end RV32IM
