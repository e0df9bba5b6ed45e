import RV32IM.Proofs.Session.Growth

-- Reports of sessions. What a session does never depends on what was reported before, and it adds
-- reports of its own. None of them is about a line of source text.

namespace RV32IM

-- Whether a diagnostic is about a line of source text that was rejected.
def Diagnostic.isRejected : Diagnostic → Bool
  | rejected .. => true
  | _ => false

namespace Session

-- The session as it would be if something else had been reported.
def withReports (s : Session) (ds : Array Diagnostic) : Session :=
  { s with diagnostics := ds }

-- The session as it would be if no line of source text had been rejected.
def unrejected (s : Session) : Session :=
  s.withReports (s.diagnostics.filter (!·.isRejected))

-- Whether something that is done to a session adds the same reports whatever was reported before,
-- and does not depend on that otherwise.
def Reports (s : Session) (f : Session → Session) : Prop :=
  ∃ new : Array Diagnostic, (∀ d ∈ new, d.isRejected = false) ∧
    ∀ ds, f (s.withReports ds) = (f s).withReports (ds ++ new)

@[simp]
theorem cursor_withReports (s : Session) (ds : Array Diagnostic) :
    (s.withReports ds).cursor = s.cursor :=
  rfl

@[simp]
theorem word_withReports (s : Session) (ds : Array Diagnostic) (w : Word) :
    (s.withReports ds).word w = (s.word w).withReports ds :=
  rfl

@[simp]
theorem record_withReports (s : Session) (ds : Array Diagnostic) (kind : RelocKind)
    (target : String) :
    (s.withReports ds).record kind target = (s.record kind target).withReports ds :=
  rfl

-- A report takes the place of those that a session is given instead of it.
@[simp]
theorem report_withReports (s : Session) (ds : Array Diagnostic) (d : Diagnostic) :
    (s.withReports ds).report d = (s.report d).withReports (ds.push d) :=
  rfl

theorem unrejected_report_rejected (s : Session) (number : Nat) (e : SourceError) :
    (s.report (.rejected number e)).unrejected = s.unrejected := by
  simp [unrejected, withReports, report, Diagnostic.isRejected]

variable {s : Session} {f g : Session → Session} {d : Diagnostic}

namespace Reports

theorem none (h : ∀ ds, f (s.withReports ds) = (f s).withReports ds) : s.Reports f :=
  ⟨#[], by simp, by simpa using h⟩

theorem one (hd : d.isRejected = false)
    (h : ∀ ds, f (s.withReports ds) = (f s).withReports (ds.push d)) : s.Reports f :=
  ⟨#[d], by simpa using hd, by simpa using h⟩

theorem comp (hf : s.Reports f) (hg : (f s).Reports g) : s.Reports fun s => g (f s) := by
  have ⟨new, hnew, hfs⟩ := hf
  have ⟨new', hnew', hgs⟩ := hg
  refine ⟨new ++ new', fun d hd => ?_, fun ds => ?_⟩
  case refine_1 => exact (Array.mem_append.mp hd).elim (hnew d) (hnew' d)
  case refine_2 => simp only [hfs, hgs, Array.append_assoc]

theorem exists_eq (h : s.Reports f) :
    ∃ new : Array Diagnostic, (∀ d ∈ new, d.isRejected = false) ∧
      (f s).diagnostics = s.diagnostics ++ new := by
  have ⟨new, hnew, hf⟩ := h
  exact ⟨new, hnew, congrArg (·.diagnostics) (hf s.diagnostics)⟩

theorem unrejected (h : s.Reports f) : f s.unrejected = (f s).unrejected := by
  have ⟨new, hnew, hf⟩ := h
  have hd : (f s).diagnostics = s.diagnostics ++ new :=
    congrArg (·.diagnostics) (hf s.diagnostics)
  have hkeep : new.filter (!·.isRejected) = new := by simpa using hnew
  rw [Session.unrejected, hf, Session.unrejected, hd, Array.filter_append Array.size_append,
    hkeep]

theorem filter_isRejected (h : s.Reports f) :
    (f s).diagnostics.filter (·.isRejected) = s.diagnostics.filter (·.isRejected) := by
  have ⟨new, hnew, hd⟩ := h.exists_eq
  have hdrop : new.filter (·.isRejected) = #[] := by simpa using hnew
  rw [hd, Array.filter_append Array.size_append, hdrop, Array.append_empty]

end Reports

theorem reports_define (s : Session) (sym : Symbol) : s.Reports (·.define sym) := by
  cases h : s.symbols.add sym
  case ok => exact .none fun _ => by simp only [define, withReports, h]
  case error old =>
    exact .one (d := .duplicateSymbol old.name old.address) rfl fun _ => by
      simp only [define, withReports, h, report]

theorem reports_label (s : Session) (name : String) : s.Reports (·.label name) := by
  by_cases h : name.toList.head? = some '@'
  case pos =>
    exact .one (d := .badOperand s.cursor (.reservedLabel name)) rfl fun _ => by
      simp only [label, if_pos h]
      rfl
  case neg => simpa [Reports, label, h] using s.reports_define ⟨name, s.cursor, false⟩

@[simp]
theorem anchor_fst_withReports (s : Session) (ds : Array Diagnostic) (distance : Word) :
    ((s.withReports ds).anchor distance).1 = (s.anchor distance).1 :=
  rfl

theorem reports_anchor (s : Session) (distance : Word) :
    s.Reports fun s => (s.anchor distance).2 :=
  let n := freshFrom s.symbols s.symbols.size s.nextAnchor
  have ⟨new, hnew, h⟩ :=
    reports_define { s with nextAnchor := n + 1 } ⟨anchorName n, s.cursor - distance, true⟩
  ⟨new, hnew, h⟩

theorem reports_zeros (s : Session) (len : Nat) : s.Reports (·.zeros len) := by
  by_cases h : len > s.room
  case pos =>
    exact .one (d := .badOperand s.cursor (.zerosTooLong len)) rfl fun ds => by
      have h' : len > (s.withReports ds).room := h
      simp only [zeros, if_pos h, if_pos h']
      rfl
  case neg =>
    exact .none fun ds => by
      have h' : ¬len > (s.withReports ds).room := h
      simp only [zeros, if_neg h, if_neg h']
      rfl

-- An operand is looked at and then the word is emitted.
theorem reports_lowImm (s : Session) (imm : Imm) (f : Word → Word) :
    s.Reports fun s => (s.lowImm imm).2.word (f (s.lowImm imm).1) := by
  cases imm
  case value v =>
    by_cases h : fitsSigned v.toInt 12
    case pos => exact .none fun _ => by simp [lowImm, h]
    case neg =>
      exact .one (d := .immediateRange s.cursor v.toInt 12) rfl fun _ => by simp [lowImm, h]
  case hi symbol =>
    exact .one (d := .badOperand s.cursor (.hiNeedsUpper symbol)) rfl fun _ => by simp [lowImm]
  case lo distance =>
    obtain ⟨new, hnew, h⟩ := s.reports_anchor distance
    exact ⟨new, hnew, fun ds => by simp [lowImm, h]⟩
  case anchored => exact .none fun _ => by simp [lowImm]

theorem reports_upperImm (s : Session) (imm : Imm) (f : Word → Word) :
    s.Reports fun s => (s.upperImm imm).2.word (f (s.upperImm imm).1) := by
  cases imm
  case value v =>
    by_cases h : -(valueCount 19 : Int) ≤ v.toInt && v.toInt < valueCount 20
    case pos => exact .none fun _ => by simp only [upperImm, if_pos h, word_withReports]
    case neg =>
      exact .one (d := .immediateRange s.cursor v.toInt 20) rfl fun _ => by
        simp only [upperImm, if_neg h, report_withReports, word_withReports, cursor_withReports]
  case hi => exact .none fun _ => by simp [upperImm]
  case lo distance =>
    obtain ⟨new, hnew, h⟩ := s.reports_anchor distance
    let d : Diagnostic :=
      .badOperand (s.anchor distance).2.cursor (.loNeedsLow (s.anchor distance).1)
    refine ⟨new.push d, ?_, fun ds => by simp [upperImm, h, d]⟩
    simpa [or_imp, forall_and, d, Diagnostic.isRejected] using hnew
  case anchored anchor =>
    exact .one (d := .badOperand s.cursor (.loNeedsLow anchor)) rfl fun _ => by simp [upperImm]

theorem reports_displacement (s : Session) (kind : RelocKind) (target : Target)
    (f : Word → Word) :
    s.Reports fun s => (s.displacement kind target).2.word (f (s.displacement kind target).1) := by
  cases target
  case offset disp =>
    by_cases h : reaches disp kind
    case pos => exact .none fun _ => by simp [displacement, h]
    case neg =>
      exact .one (d := .outOfRange s.cursor kind disp.toInt) rfl fun _ => by simp [displacement, h]
  case label => exact .none fun _ => by simp [displacement]

theorem reports_exec (s : Session) {st : Stmt} (h : ∀ d, st ≠ .report d) :
    s.Reports (·.exec st) := by
  cases st
  case emitRegister | word | wordOf | bytes => exact .none fun _ => rfl
  case emitImmediate bits rd rs1 imm =>
    exact s.reports_lowImm imm (Instr.encodeImmediate bits rd rs1)
  case emitStore bits src base imm =>
    exact s.reports_lowImm imm (Instr.encodeStore bits base src)
  case emitBranch bits rs1 rs2 target =>
    exact s.reports_displacement .branch target (Instr.encodeBranch bits rs1 rs2)
  case emitJump bits rd target =>
    exact s.reports_displacement .jump target (Instr.encodeJump bits rd)
  case emitUpper bits rd imm =>
    exact s.reports_upperImm imm (Instr.encodeUpper bits rd)
  case emitShift amount =>
    by_cases ha : amount < 32
    case pos => exact .none fun _ => by simp only [exec, shiftAmount, if_pos ha, word_withReports]
    case neg =>
      exact .one (d := .immediateRange s.cursor amount.toNat 5) rfl fun _ => by
        simp only [exec, shiftAmount, if_neg ha, report_withReports, word_withReports,
          cursor_withReports]
  case zeros len => exact s.reports_zeros len
  case align n =>
    by_cases hn : n > 1
    case pos =>
      simpa [Reports, exec, align, hn] using s.reports_zeros ((n - s.cursor.toNat % n) % n)
    case neg => exact .none fun _ => by simp only [exec, align, if_neg hn]
  case label name => exact s.reports_label name
  case define sym => exact s.reports_define sym
  case anchor distance => exact s.reports_anchor distance
  case report d => exact absurd rfl (h d)

theorem reports_run (s : Session) {stmts : List Stmt} (h : ∀ st ∈ stmts, ∀ d, st ≠ .report d) :
    s.Reports (·.run stmts) := by
  induction stmts generalizing s
  case nil => exact .none fun _ => rfl
  case cons st stmts ih =>
    have ⟨hst, hstmts⟩ := List.forall_mem_cons.mp h
    exact (s.reports_exec hst).comp (ih (s.exec st) hstmts)

end Session

end RV32IM
