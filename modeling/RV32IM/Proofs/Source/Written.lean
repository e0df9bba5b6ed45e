import RV32IM.Proofs.Session.Growth
import RV32IM.Proofs.Source.Spelling

-- Statements as they may be written: an instruction or a directive in any letter case, with
-- operands in any spelling, laid out in a line in any way. The line asks for what the statement
-- stands for, and every call of a session has such a line.

namespace RV32IM

namespace Source

open Text Numeral

-- An instruction by its mnemonic and its operands, and the statements that it stands for.
inductive SpellsInstruction : String → List Chars → List Stmt → Prop
  | register {op a b c rd rs1 rs2} (h : op.format = .reg) :
    Spells a rd → Spells b rs1 → Spells c rs2 →
    SpellsInstruction op.mnemonic [a, b, c] [.register op rd rs1 rs2 h]
  | immediate {op a b t rd rs1 imm} (h : op.format = .imm) :
    op ≠ .jalr → Spells a rd → Spells b rs1 → SpellsImm t imm →
    SpellsInstruction op.mnemonic [a, b, t] [.immediate op rd rs1 imm (.imm h)]
  | jalr {ops rd base imm} :
    SpellsMemory ops rd base imm → SpellsInstruction "jalr" ops [.immediate .jalr rd base imm]
  | load {op ops rd base imm} (h : op.format = .load) :
    SpellsMemory ops rd base imm →
    SpellsInstruction op.mnemonic ops [.immediate op rd base imm (.load h)]
  | store {op ops src base imm} (h : op.format = .store) :
    SpellsMemory ops src base imm → SpellsInstruction op.mnemonic ops [.store op src base imm h]
  | shift {op a b t rd rs1} {amount : Word} (h : op.format = .shift) :
    Spells a rd → Spells b rs1 → SpellsNumber t amount.toNat →
    SpellsInstruction op.mnemonic [a, b, t] [.shift op rd rs1 amount h]
  | branch {op a b t rs1 rs2 target} (h : op.format = .branch) :
    Spells a rs1 → Spells b rs2 → SpellsTarget t target →
    SpellsInstruction op.mnemonic [a, b, t] [.branch op rs1 rs2 target h]
  | upper {op a t rd imm} (h : op.format = .upper) :
    Spells a rd → SpellsImm t imm → SpellsInstruction op.mnemonic [a, t] [.upper op rd imm h]
  | jump {op a t rd target} (h : op.format = .jump) :
    Spells a rd → SpellsTarget t target →
    SpellsInstruction op.mnemonic [a, t] [.jump op rd target h]
  | link {op t target} (h : op.format = .jump) :
    SpellsTarget t target → SpellsInstruction op.mnemonic [t] [.jump op .ra target h]
  | bare {op} : op.format = .fence ∨ op.format = .system →
    SpellsInstruction op.mnemonic [] [.bare op]
  | nop : SpellsInstruction "nop" [] [.nop]
  | mv {a b rd rs} : Spells a rd → Spells b rs → SpellsInstruction "mv" [a, b] [.mv rd rs]
  | li {a t rd v} : Spells a rd → SpellsBits 32 t v → SpellsInstruction "li" [a, t] (Stmt.li rd v)
  | la {a name rd} : Spells a rd → isIdent name →
    SpellsInstruction "la" [a, name] (Stmt.la rd (String.ofList name))
  | call {name} : isIdent name → SpellsInstruction "call" [name] (Stmt.call (String.ofList name))
  | j {t target} : SpellsTarget t target → SpellsInstruction "j" [t] [.j target]
  | ret : SpellsInstruction "ret" [] [.ret]
  | halt : SpellsInstruction "invalid" [] [.halt]

-- A directive by its name and its operands.
inductive SpellsDirective : String → List Chars → List Stmt → Prop
  | word {t v} : SpellsBits 32 t v → SpellsDirective ".word" [t] [.word v]
  | wordOf {name} : isIdent name → number? name = none →
    SpellsDirective ".word" [name] [.wordOf (String.ofList name)]
  | bytes {ops bs} : List.Forall₂ (SpellsBits 8) ops bs → SpellsDirective ".byte" ops [.bytes bs]
  | zeros {t} {n : Nat} : SpellsNumber t n → SpellsDirective ".zero" [t] [.zeros n]
  | align {t k} : k ≤ 12 → SpellsNumber t (2 ^ k : Nat) →
    SpellsDirective ".balign" [t] [.align (2 ^ k)]

section Reading

variable {ctx : Context} {mn : String} {ops : List Chars} {stmts : List Stmt}

theorem SpellsInstruction.mnemonic_eq (hc : ctx.constants = [])
    (h : SpellsInstruction mn ops stmts) : mnemonic ctx mn ops = .ok stmts := by
  cases h
  case register a b c rd rs1 rs2 h ha hb hc =>
    apply mnemonic_of_instruction
    rw [instruction_register h, ha.read, hb.read, hc.read]
    rfl
  case immediate a b t rd rs1 imm h hj ha hb ht =>
    apply mnemonic_of_instruction
    rw [instruction_immediate h hj, ha.read, hb.read, ht.immediate_eq]
    rfl
  case jalr rd base imm h =>
    have hl : ops.length ≠ 1 := by cases h <;> simp
    have hj : instruction ctx .jalr ops = .ok (.immediate .jalr rd base imm) := by
      rw [instruction_jalr hl, h.registerAndMemory_eq]
      rfl
    exact mnemonic_of_instruction hj
  case load h hm =>
    apply mnemonic_of_instruction
    rw [instruction_load h, hm.registerAndMemory_eq]
    rfl
  case store h hm =>
    apply mnemonic_of_instruction
    rw [instruction_store h, hm.registerAndMemory_eq]
    rfl
  case shift h ha hb ht =>
    apply mnemonic_of_instruction
    rw [instruction_shift h, ha.read, hb.read, unsignedWord_eq ht.read]
    rfl
  case branch h ha hb ht =>
    apply mnemonic_of_instruction
    rw [instruction_branch h, ha.read, hb.read, ht.target_eq hc]
    rfl
  case upper h ha ht =>
    apply mnemonic_of_instruction
    rw [instruction_upper h, ha.read, ht.immediate_eq]
    rfl
  case jump a t rd target h ha ht =>
    apply mnemonic_of_instruction
    rw [(instruction_jump h a t).left, ha.read, ht.target_eq hc]
    rfl
  case link t target h ht =>
    apply mnemonic_of_instruction
    rw [(instruction_jump h t t).right, ht.target_eq hc]
    rfl
  case bare h => exact mnemonic_of_instruction (instruction_bare h)
  case nop | ret | halt => rfl
  case mv ha hb =>
    simp only [mnemonic, ha.read, hb.read]
    rfl
  case li ha ht =>
    simp only [mnemonic, ha.read, ht.word_eq]
    rfl
  case la ha hi =>
    simp only [mnemonic, ha.read, name, if_pos hi]
    rfl
  case call hi =>
    simp only [mnemonic, name, if_pos hi]
    rfl
  case j ht =>
    simp only [mnemonic, ht.target_eq hc]
    rfl

theorem SpellsBits.numberItem_eq {t : Chars} {b : Byte} (h : SpellsBits 8 t b) :
    numberItem ctx 1 t = .ok (.bytes [b]) := by
  cases h
  case number i hn hl hu =>
    have hb : BitVec.ofNat 8 (i % valueCount 8).toNat = BitVec.ofInt 8 i := by
      apply BitVec.eq_of_toNat_eq
      simp [valueCount, BitVec.toNat_ofInt]
      omega
    have hi : -(valueCount 7 : Int) ≤ i ∧ i < valueCount 8 := ⟨hl, hu⟩
    have hitem : ctx.item 8 t = .ok i := by
      simp only [Context.item, Context.value, hn.read, bind, Except.bind, if_pos hi]
      rfl
    have hitem : numberItem ctx 1 t = .ok (.bytes [BitVec.ofNat 8 (i % valueCount 8).toNat]) := by
      rw [numberItem, hitem]
      rfl
    rw [hitem, hb]

theorem items_bytes {bs : List Byte} (h : List.Forall₂ (SpellsBits 8) ops bs) :
    items (numberItem ctx 1) ops = { stmts := bs.map fun b => .bytes [b] } := by
  induction h
  case nil => rfl
  case cons hb hbs ih => simp only [items, hb.numberItem_eq, ih, List.map_cons]

theorem run_bytes (s : Session) (bs : List Byte) :
    s.run (bs.map fun b => .bytes [b]) = s.bytes bs := by
  induction bs generalizing s
  case nil => simp [Session.run, Session.bytes]
  case cons b bs ih =>
    have hs : s.run ((b :: bs).map fun b => .bytes [b]) =
        (s.bytes [b]).run (bs.map fun b => .bytes [b]) :=
      rfl
    rw [hs, ih, Session.bytes_bytes]
    rfl

-- Bytes are emitted one at a time, and every other directive is the statement itself.
theorem SpellsDirective.directive_eq (hc : ctx.constants = []) (h : SpellsDirective mn ops stmts)
    (hr : ∀ n, .zeros n ∈ stmts → n ≤ ctx.room) {rest : Chars} (ho : operands rest = ops) :
    ∃ stmts', directive ctx mn rest = { stmts := stmts' } ∧
      ∀ s : Session, s.run stmts' = s.run stmts := by
  cases h
  case word t v h =>
    have hd : directive ctx ".word" rest = items (wordItem ctx) [t] := ho ▸ rfl
    refine ⟨_, hd.trans ?_, fun _ => rfl⟩
    simp only [items, wordItem, h.word_eq]
  case wordOf name hi hn =>
    have hd : directive ctx ".word" rest = items (wordItem ctx) [name] := ho ▸ rfl
    have hw : wordItem ctx name = .ok (.wordOf (String.ofList name)) :=
      wordItem_of_isIdent hi (fun v hv => by simp [hn] at hv) (by rw [hc]; rfl)
    refine ⟨_, hd.trans ?_, fun _ => rfl⟩
    simp only [items, hw]
  case bytes bs h =>
    have hd : directive ctx ".byte" rest = items (numberItem ctx 1) ops := ho ▸ rfl
    exact ⟨_, hd.trans (items_bytes h), fun s => run_bytes s bs⟩
  case zeros t n h =>
    have hd : directive ctx ".zero" rest = .ofRead (zeroRun ctx [t]) := ho ▸ rfl
    have hn : ¬(n : Int) < 0 := by omega
    have hroom : ¬n > ctx.room := Nat.not_lt.mpr (hr n List.mem_cons_self)
    refine ⟨_, hd.trans ?_, fun _ => rfl⟩
    simp only [zeroRun, value_of_number? h.read, bind, Except.bind, if_neg hn, Int.toNat_natCast,
      if_neg hroom]
    rfl
  case align t k hk h =>
    have hd : directive ctx ".balign" rest = .ofRead (alignBytes ctx [t]) := ho ▸ rfl
    have hpower : ∀ k ≤ 12, isPowerOfTwo (2 ^ k) := by decide
    have hn : 0 < ((2 ^ k : Nat) : Int) ∧ isPowerOfTwo (2 ^ k) :=
      ⟨Int.natCast_pos.mpr (Nat.two_pow_pos k), hpower k hk⟩
    refine ⟨_, hd.trans ?_, fun _ => rfl⟩
    simp only [alignBytes, value_of_number? h.read, bind, Except.bind, Int.toNat_natCast, if_pos hn]
    rfl

end Reading

section Separable

variable {head cs : Chars} {mn : String} {ops : List Chars} {stmts : List Stmt}

theorem head?_lower : (lower cs).head? = some '.' ↔ cs.head? = some '.' := by
  have hdot {c : Char} (h : c.toLower = '.') : c = '.' := by
    have ha : c.isAlpha = false := by
      rw [← Char.isAlpha_toLower_eq_isAlpha, h]
      rfl
    have hu : ¬c.isUpper := by simp_all [Char.isAlpha]
    rwa [Char.toLower_eq_of_not_isUpper hu] at h
  rw [lower, List.head?_map, Option.map_eq_some_iff]
  constructor
  case mp =>
    rintro ⟨c, hc, h⟩
    rw [hc, hdot h]
  case mpr => exact fun h => ⟨'.', h, rfl⟩

theorem SpellsInstruction.isMnemonic (h : SpellsInstruction mn ops stmts) :
    mn.toList ≠ [] ∧ (∀ c ∈ mn.toList, isPlain c) ∧ mn.toList.head? ≠ some '.' := by
  have hop (op : Op) : op.mnemonic.toList ≠ [] ∧ (∀ c ∈ op.mnemonic.toList, isPlain c) ∧
      op.mnemonic.toList.head? ≠ some '.' :=
    ⟨mnemonic_ne_nil op, isPlain_mnemonic op, head?_mnemonic op⟩
  cases h
  case jalr => exact hop .jalr
  case nop | mv | li | la | call | j | ret | halt =>
    exact ⟨by decide, List.all_eq_true.mp (by decide), by decide⟩
  all_goals exact hop _

theorem SpellsInstruction.isPiece (h : SpellsInstruction mn ops stmts) : ∀ o ∈ ops, IsPiece o := by
  cases h
  case jalr h | load h | store h => exact h.isPiece
  case bare | nop | ret | halt => nofun
  case register ha hb hc =>
    simpa using ⟨ha.isOperand.isPiece, hb.isOperand.isPiece, hc.isOperand.isPiece⟩
  case immediate ha hb ht => simpa using ⟨ha.isOperand.isPiece, hb.isOperand.isPiece, ht.isPiece⟩
  case shift ha hb ht => simpa using ⟨ha.isOperand.isPiece, hb.isOperand.isPiece, ht.isPiece⟩
  case branch ha hb ht => simpa using ⟨ha.isOperand.isPiece, hb.isOperand.isPiece, ht.isPiece⟩
  case upper ha ht => simpa using ⟨ha.isOperand.isPiece, ht.isPiece⟩
  case jump ha ht => simpa using ⟨ha.isOperand.isPiece, ht.isPiece⟩
  case mv ha hb => simpa using ⟨ha.isOperand.isPiece, hb.isOperand.isPiece⟩
  case li ha ht => simpa using ⟨ha.isOperand.isPiece, ht.isPiece⟩
  case la ha hi => simpa using ⟨ha.isOperand.isPiece, (isOperand_of_isIdent hi).isPiece⟩
  case call hi => simpa using (isOperand_of_isIdent hi).isPiece
  case link ht | j ht => simpa using ht.isPiece

-- The first operand is a register if others follow it.
theorem SpellsInstruction.first (h : SpellsInstruction mn ops stmts) {o : Chars}
    {os : List Chars} (he : ops = o :: os) :
    (∃ r, Spells o r) ∨ os = [] ∧ ∀ c ∈ o, isPlain c := by
  cases h
  case jalr h | load h | store h =>
    cases h
    all_goals
      cases he
      exact .inl ⟨_, ‹_›⟩
  case bare | nop | ret | halt => cases he
  case link ht | j ht =>
    cases he
    exact .inr ⟨rfl, ht.isPlain⟩
  case call hi =>
    cases he
    exact .inr ⟨rfl, isPlain_of_isIdent hi⟩
  all_goals
    cases he
    exact .inl ⟨_, ‹_›⟩

theorem SpellsInstruction.separable (h : SpellsInstruction mn ops stmts)
    (hm : lower head = mn.toList) : Separable head ops where
  nonempty := by
    rintro rfl
    exact h.isMnemonic.left hm.symm
  plain := isPlain_of_lower (hm ▸ h.isMnemonic.right.left)
  pieces := h.isPiece
  first o os he := by
    rcases h.first he with ⟨r, hr⟩ | ⟨hos, ho⟩
    case inl => exact ⟨hr.nonblank, fun _ => hr.lower_ne_equ⟩
    case inr => exact ⟨fun c hc => isBlank_of_isPlain (ho c hc), fun hn => absurd hos hn⟩

theorem SpellsDirective.isPiece (h : SpellsDirective mn ops stmts) : ∀ o ∈ ops, IsPiece o := by
  cases h
  case word h | zeros h => simpa using h.isPiece
  case align h => simpa using h.isPiece
  case wordOf hi _ => simpa using (isOperand_of_isIdent hi).isPiece
  case bytes h =>
    induction h
    case nil => nofun
    case cons hb _ ih => exact List.forall_mem_cons.mpr ⟨hb.isPiece, ih⟩

theorem SpellsDirective.first (h : SpellsDirective mn ops stmts) {o : Chars} {os : List Chars}
    (he : ops = o :: os) : (∀ c ∈ o, isPlain c) ∧ (os ≠ [] → lower o ≠ "equ".toList) := by
  cases h
  case word h =>
    cases he
    exact ⟨h.isPlain, fun hn => absurd rfl hn⟩
  case wordOf hi _ =>
    cases he
    exact ⟨isPlain_of_isIdent hi, fun hn => absurd rfl hn⟩
  case bytes h =>
    subst he
    cases h
    case cons hb _ =>
      cases hb
      case number hn _ _ => exact ⟨hn.isPlain, fun _ => hn.lower_ne_equ⟩
  case zeros h | align h =>
    cases he
    exact ⟨h.isPlain, fun hn => absurd rfl hn⟩

theorem SpellsDirective.separable (h : SpellsDirective mn ops stmts)
    (hm : lower head = mn.toList) : Separable head ops ∧ head.head? = some '.' := by
  have hmn : mn.toList.head? = some '.' ∧ ∀ c ∈ mn.toList, isPlain c := by
    cases h
    all_goals exact ⟨rfl, List.all_eq_true.mp (by decide)⟩
  have hdot : head.head? = some '.' := head?_lower.mp (hm ▸ hmn.left)
  refine ⟨⟨?nonempty, isPlain_of_lower (hm ▸ hmn.right), h.isPiece, fun o os he => ?first⟩, hdot⟩
  case nonempty =>
    rintro rfl
    cases hdot
  case first =>
    have ⟨hp, hkey⟩ := h.first he
    exact ⟨fun c hc => isBlank_of_isPlain (hp c hc), hkey⟩

end Separable

-- A call of a session and a line that it may be written as.
inductive Written : List Stmt → Chars → Prop
  | label {name cs} : isIdent name → LaysLabel name cs → Written [.label (String.ofList name)] cs
  | instruction {head mn ops stmts cs} : lower head = mn.toList →
    SpellsInstruction mn ops stmts → Lays head ops cs → Written stmts cs
  | directive {head mn ops stmts cs} : lower head = mn.toList →
    SpellsDirective mn ops stmts → Lays head ops cs → Written stmts cs

theorem line_of_written {ctx : Context} {stmts : List Stmt} {cs : Chars} (h : Written stmts cs)
    (hc : ctx.constants = []) (hr : ∀ n, .zeros n ∈ stmts → n ≤ ctx.room) :
    ∃ stmts', line ctx cs = { stmts := stmts' } ∧ ∀ s : Session, s.run stmts' = s.run stmts := by
  cases h
  case label hi hl => exact ⟨_, line_of_laysLabel ctx hl hi, fun _ => rfl⟩
  case instruction head mn ops hm h hl =>
    have hs := h.separable hm
    have hdot : head.head? ≠ some '.' := fun he =>
      h.isMnemonic.right.right (hm ▸ head?_lower.mpr he)
    have ⟨rest, _, hline⟩ := line_of_lays ctx hl hs
    rw [if_neg hdot, hm, String.ofList_toList, h.mnemonic_eq hc] at hline
    exact ⟨stmts, hline, fun _ => rfl⟩
  case directive head mn ops hm h hl =>
    have ⟨hs, hdot⟩ := h.separable hm
    have ⟨rest, ho, hline⟩ := line_of_lays ctx hl hs
    rw [if_pos hdot, hm, String.ofList_toList] at hline
    have ⟨stmts', hd, hrun⟩ := h.directive_eq hc hr ho
    exact ⟨stmts', hline.trans hd, hrun⟩

section Calls

-- Whether an immediate names its symbol with a name. Anchors that are named directly have no text.
def IsNamedImm : Imm → Prop
  | .value _ | .lo _ => True
  | .hi symbol => isIdent symbol.toList
  | .anchored _ => False

def IsNamedTarget : Target → Prop
  | .offset _ => True
  | .label name => isIdent name.toList ∧ number? name.toList = none

-- The calls of a session that do not depend on names that no text can have. The other
-- pseudo-instructions and the word that halts are among them.
inductive IsCall : List Stmt → Prop
  | label {name} : isIdent name.toList → IsCall [.label name]
  | register op rd rs1 rs2 h : IsCall [.register op rd rs1 rs2 h]
  | immediate op rd rs1 {imm} h : IsNamedImm imm → IsCall [.immediate op rd rs1 imm h]
  | shift op rd rs1 amount h : IsCall [.shift op rd rs1 amount h]
  | store op src base {imm} h : IsNamedImm imm → IsCall [.store op src base imm h]
  | branch op rs1 rs2 {target} h : IsNamedTarget target → IsCall [.branch op rs1 rs2 target h]
  | upper op rd {imm} h : IsNamedImm imm → IsCall [.upper op rd imm h]
  | jump op rd {target} h : IsNamedTarget target → IsCall [.jump op rd target h]
  | bare {op : Op} : op.format = .fence ∨ op.format = .system → IsCall [.bare op]
  | li rd v : IsCall (Stmt.li rd v)
  | la rd {symbol} : isIdent symbol.toList → IsCall (Stmt.la rd symbol)
  | call {symbol} : isIdent symbol.toList → IsCall (Stmt.call symbol)
  | word w : IsCall [.word w]
  | wordOf {name} : isIdent name.toList → number? name.toList = none → IsCall [.wordOf name]
  | bytes bs : IsCall [.bytes bs]
  | zeros {n} : n ≤ addressLimit → IsCall [.zeros n]
  | align {k} : k ≤ 12 → IsCall [.align (2 ^ k)]

theorem exists_spellsImm {imm : Imm} (h : IsNamedImm imm) :
    ∃ cs, SpellsImm cs imm ∧ IsOperand cs := by
  have hpad o : Padded o o := by simpa using Padded.pad (o := o) blanks_nil blanks_nil
  cases imm
  case value v => exact ⟨_, .value (.hex (by decide) v), isOperand_hex _⟩
  case anchored => exact h.elim
  case hi symbol =>
    have hop : ∀ c ∈ "%pcrel_hi".toList, isPlain c := List.all_eq_true.mp (by decide)
    have hi := SpellsImm.hi h (hpad symbol.toList)
    rw [String.ofList_toList] at hi
    exact ⟨_, hi, .memory hop (isPlain_of_isIdent h)⟩
  case lo distance =>
    have hop : ∀ c ∈ "%pcrel_lo".toList, isPlain c := List.all_eq_true.mp (by decide)
    have hn : SpellsNumber ("0x" ++ Numeral.hex distance.toNat).toList distance.toNat :=
      .hex (toNat_lt_valueCount distance)
    exact ⟨_, .lo hn (hpad _), .memory hop hn.isPlain⟩

theorem exists_spellsTarget {target : Target} (h : IsNamedTarget target) :
    ∃ cs, SpellsTarget cs target ∧ IsOperand cs := by
  cases target
  case offset disp => exact ⟨_, .offset (.hex (by decide) disp), isOperand_hex _⟩
  case label name =>
    have hl := SpellsTarget.label h.left h.right
    rw [String.ofList_toList] at hl
    exact ⟨_, hl, isOperand_of_isIdent h.left⟩

theorem intercalate_map_blank {ops : List Chars} (hn : ops ≠ []) :
    [','].intercalate (ops.map (' ' :: ·)) = ' ' :: [',', ' '].intercalate ops := by
  induction ops
  case nil => contradiction
  case cons o os ih =>
    cases os
    case nil => simp
    case cons o' os =>
      have ih := ih (List.cons_ne_nil o' os)
      rw [List.map_cons] at ih
      rw [List.map_cons, List.map_cons, List.intercalate_cons_cons, ih, List.intercalate_cons_cons]
      simp

-- The layout of a printed statement is one of those that there are.
theorem lays_statementText (head : Chars) (ops : List Chars) :
    Lays head ops (statementText head ops) := by
  have hpad (os : List Chars) : List.Forall₂ Padded os (os.map (' ' :: ·)) := by
    induction os
    case nil => exact .nil
    case cons o os ih =>
      have ho : Padded o ([' '] ++ (o ++ [])) := .pad (by decide) blanks_nil
      rw [List.append_nil] at ho
      exact .cons ho ih
  cases ops
  case nil =>
    have hgap : ∀ c ∈ ([','].intercalate ([] : List Chars)).head?, isBlank c := by simp
    simpa [statementText] using
      @Lays.line head [] [] [] [] [] blanks_nil .nil hgap blanks_nil .none
  case cons o os =>
    have hi := intercalate_map_blank (List.cons_ne_nil o os)
    have hgap : ∀ c ∈ ([','].intercalate ((o :: os).map (' ' :: ·))).head?, isBlank c := by
      rw [hi]
      rintro c ⟨⟩
      rfl
    have hl := @Lays.line head (o :: os) [] [] [] _ blanks_nil (hpad _) hgap blanks_nil .none
    rw [hi] at hl
    simpa [statementText] using hl

section Exists

variable {mn : String} {ops : List Chars} {stmts : List Stmt}

theorem not_mem_statementText {head : Chars} (h : IsStatement head ops) :
    '\n' ∉ statementText head ops :=
  fun hm => nomatch h.inert _ hm

theorem SpellsInstruction.exists_written (h : SpellsInstruction mn ops stmts)
    (hl : lower mn.toList = mn.toList) (ho : ∀ o ∈ ops, IsOperand o) :
    ∃ l, Written stmts l ∧ '\n' ∉ l :=
  ⟨_, .instruction hl h (lays_statementText _ _),
    not_mem_statementText ⟨h.isMnemonic.left, h.isMnemonic.right.left, ho⟩⟩

theorem SpellsDirective.exists_written (h : SpellsDirective mn ops stmts)
    (hl : lower mn.toList = mn.toList) (ho : ∀ o ∈ ops, IsOperand o) :
    ∃ l, Written stmts l ∧ '\n' ∉ l := by
  have hs := (h.separable hl).left
  exact ⟨_, .directive hl h (lays_statementText _ _),
    not_mem_statementText ⟨hs.nonempty, hs.plain, ho⟩⟩

-- An immediate operand is listed with the others, or stands before its base register.
theorem exists_written_immediate (op : Op) (rd rs1 : Reg) {imm : Imm} (h : op.TakesImmediate)
    (hi : IsNamedImm imm) : ∃ l, Written [.immediate op rd rs1 imm h] l ∧ '\n' ∉ l := by
  have ⟨t, ht, ho⟩ := exists_spellsImm hi
  have hops : ∀ o ∈ [rd.text.toList, rs1.text.toList, t], IsOperand o := by simp [ho]
  have hm := SpellsMemory.listed (.text rd) (.text rs1) ht
  rcases h with h | h
  case inr => exact (SpellsInstruction.load h hm).exists_written (lower_mnemonic op) hops
  case inl =>
    by_cases hj : op = .jalr
    case pos =>
      subst hj
      exact (SpellsInstruction.jalr hm).exists_written rfl hops
    case neg =>
      have hs := SpellsInstruction.immediate h hj (.text rd) (.text rs1) ht
      exact hs.exists_written (lower_mnemonic op) hops

theorem exists_written_label {name : String} (hi : isIdent name.toList) :
    ∃ l, Written [.label name] l ∧ '\n' ∉ l := by
  have hl := @LaysLabel.line name.toList [] [] [] [] blanks_nil blanks_nil blanks_nil .none
  have hw := Written.label hi hl
  have hfeed : '\n' ∉ name.toList := fun hm => nomatch isPlain_of_isIdent hi _ hm
  rw [String.ofList_toList] at hw
  exact ⟨_, hw, by simpa using hfeed⟩

theorem exists_written_bytes (bs : List Byte) : ∃ l, Written [.bytes bs] l ∧ '\n' ∉ l := by
  have hbs : List.Forall₂ (SpellsBits 8) (bs.map fun b => ("0x" ++ hex b.toNat).toList) bs := by
    induction bs
    case nil => exact .nil
    case cons b bs ih => exact .cons (.hex (by decide) b) ih
  exact (SpellsDirective.bytes hbs).exists_written rfl (by simp [-String.toList_append])

theorem exists_written_align {k : Nat} (hk : k ≤ 12) :
    ∃ l, Written [.align (2 ^ k)] l ∧ '\n' ∉ l := by
  have hlt : 2 ^ k < valueCount 63 :=
    Nat.lt_of_le_of_lt (Nat.pow_le_pow_right (by decide) hk) (by decide : 2 ^ 12 < valueCount 63)
  exact (SpellsDirective.align hk (.hex hlt)).exists_written rfl (by simp [-String.toList_append])

end Exists

-- Every call can be written down, with registers by number and numbers in hexadecimal.
theorem exists_written {call : List Stmt} (h : IsCall call) : ∃ l, Written call l ∧ '\n' ∉ l := by
  cases h
  case label hi => exact exists_written_label hi
  case register op rd rs1 rs2 h =>
    have hs := SpellsInstruction.register h (.text rd) (.text rs1) (.text rs2)
    exact hs.exists_written (lower_mnemonic op) (by simp)
  case immediate op rd rs1 imm h hi => exact exists_written_immediate op rd rs1 h hi
  case shift op rd rs1 amount h =>
    have hn := SpellsNumber.hex (toNat_lt_valueCount amount)
    have hs := SpellsInstruction.shift h (.text rd) (.text rs1) hn
    exact hs.exists_written (lower_mnemonic op) (by simp [-String.toList_append])
  case store op src base imm h hi =>
    have ⟨t, ht, ho⟩ := exists_spellsImm hi
    have hs := SpellsInstruction.store h (.listed (.text src) (.text base) ht)
    exact hs.exists_written (lower_mnemonic op) (by simp [ho])
  case branch op rs1 rs2 target h hn =>
    have ⟨t, ht, ho⟩ := exists_spellsTarget hn
    have hs := SpellsInstruction.branch h (.text rs1) (.text rs2) ht
    exact hs.exists_written (lower_mnemonic op) (by simp [ho])
  case upper op rd imm h hi =>
    have ⟨t, ht, ho⟩ := exists_spellsImm hi
    have hs := SpellsInstruction.upper h (.text rd) ht
    exact hs.exists_written (lower_mnemonic op) (by simp [ho])
  case jump op rd target h hn =>
    have ⟨t, ht, ho⟩ := exists_spellsTarget hn
    have hs := SpellsInstruction.jump h (.text rd) ht
    exact hs.exists_written (lower_mnemonic op) (by simp [ho])
  case bare op h => exact (SpellsInstruction.bare h).exists_written (lower_mnemonic op) nofun
  case li rd v =>
    have hs := SpellsInstruction.li (.text rd) (.hex (by decide) v)
    exact hs.exists_written rfl (by simp [-String.toList_append])
  case la rd symbol hi =>
    have hs := SpellsInstruction.la (.text rd) hi
    rw [String.ofList_toList] at hs
    exact hs.exists_written rfl (by simp [isOperand_of_isIdent hi])
  case call symbol hi =>
    have hs := SpellsInstruction.call hi
    rw [String.ofList_toList] at hs
    exact hs.exists_written rfl (by simp [isOperand_of_isIdent hi])
  case word w =>
    have hs := SpellsDirective.word (.hex (by decide) w)
    exact hs.exists_written rfl (by simp [-String.toList_append])
  case wordOf name hi hn =>
    have hs := SpellsDirective.wordOf hi hn
    rw [String.ofList_toList] at hs
    exact hs.exists_written rfl (by simp [isOperand_of_isIdent hi])
  case bytes bs => exact exists_written_bytes bs
  case zeros n hn =>
    have hs := SpellsDirective.zeros (.hex (Nat.lt_of_le_of_lt hn (by decide)))
    exact hs.exists_written rfl (by simp [-String.toList_append])
  case align hk => exact exists_written_align hk

end Calls

end Source

end RV32IM
