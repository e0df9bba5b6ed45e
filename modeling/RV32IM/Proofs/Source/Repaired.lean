import RV32IM.Proofs.Source.Rejected
import RV32IM.Proofs.Source.Transcript

-- Texts without their rejected lines. Where each line that is rejected is replaced by what it is
-- carried out for, the text assembles to the same object, and only the complaints about the lines
-- are gone.

namespace RV32IM.Source

open Text

variable {ctx : Context} {cs : Chars} {e : SourceError} {d : Data} {name : Chars} {op : Chars}

-- Whether every constant has a name that can be written.
def Context.Named (ctx : Context) : Prop :=
  ∀ p ∈ ctx.constants, isIdent p.1.toList

-- The directive of data with its good operands.
def Data.text (d : Data) : Chars :=
  statementText d.name.toList d.good

-- What a line is carried out for, as a line that is not rejected: its labels, and if it is one of
-- data, the operands before the first bad one.
def accepted (ctx : Context) (cs : Chars) : Chars :=
  match (line ctx cs).error with
  | none => cs
  | some _ =>
    (labelNames cs).flatMap (· ++ [':']) ++ ((data? ctx (unlabelled cs)).map Data.text).getD []

section Operands

theorem isOperand_of_value (hn : ctx.Named) {v : Int} (h : ctx.value op = .ok v) :
    IsOperand (trim op) := by
  unfold Context.value at h
  split at h
  case h_1 v' hv =>
    refine .of_plain (fun hnil => ?_) (isPlain_of_isSigned (isSigned_of_number? hv))
    rw [number?, hnil] at hv
    cases hv
  case h_2 =>
    split at h
    case h_2 => cases h
    case h_1 v' hv =>
      obtain ⟨before, after, hc, _⟩ := List.lookup_eq_some_iff.mp hv
      have hmem : (String.ofList (trim op), v') ∈ ctx.constants := by simp [hc]
      have hi := hn _ hmem
      rw [String.toList_ofList] at hi
      exact isOperand_of_isIdent hi

theorem isOperand_of_item (hn : ctx.Named) {st : Stmt} (h : Item ctx op st) (ht : trim op = op) :
    IsOperand op := by
  cases h
  case word hv | bytes hv => exact ht ▸ isOperand_of_value hn hv
  case symbol hi => exact isOperand_of_isIdent hi

-- What may stand for a directive of data.
theorem name_of_itemReader? {name : String} {read : Chars → Read Stmt}
    (h : itemReader? ctx name = some read) : name ∈ [".word", ".half", ".byte"] := by
  unfold itemReader? at h
  split at h
  case h_4 => cases h
  all_goals decide

theorem isStatement_of_data? (hn : ctx.Named) (h : data? ctx cs = some d) :
    IsStatement d.name.toList d.good := by
  have ⟨hr, htrim⟩ := exists_itemReader?_of_data? h
  have hname : ∀ n ∈ [".word", ".half", ".byte"], n.toList ≠ [] ∧ n.toList.all isPlain := by decide
  have ⟨hne, hp⟩ := hname _ (name_of_itemReader? hr)
  refine ⟨hne, List.all_eq_true.mp hp, fun op hop => ?_⟩
  have hok := List.mem_takeWhile_imp hop
  cases hst : d.read op
  case error => simp [hst, Except.isOk, Except.toBool] at hok
  case ok st =>
    have hmem : op ∈ d.ops := (List.takeWhile_sublist _).mem hop
    exact isOperand_of_item hn (item_of_itemReader? hr hst) (htrim op hmem)

theorem line_text_of_data? (hn : ctx.Named) (h : data? ctx cs = some d) :
    line ctx d.text = items d.read d.good := by
  have ⟨hr, _⟩ := exists_itemReader?_of_data? h
  have hs := isStatement_of_data? hn h
  have hname : ∀ n ∈ [".word", ".half", ".byte"],
      n.toList.head? = some '.' ∧ String.ofList (lower n.toList) = n := by decide
  have ⟨hd, hl⟩ := hname _ (name_of_itemReader? hr)
  rw [Data.text, line_statementText hs, if_pos hd, hl, directive_of_itemReader? hr,
    operands_intercalate hs.operands]

end Operands

section Labels

theorem line_labels {names : List Chars} (h : ∀ n ∈ names, isIdent n) (cs : Chars) :
    line ctx (names.flatMap (· ++ [':']) ++ cs) =
      { line ctx cs with
        stmts := names.map (fun n => .label (String.ofList n)) ++ (line ctx cs).stmts } := by
  induction names
  case nil => rfl
  case cons name names ih =>
    have ⟨hi, hnames⟩ := List.forall_mem_cons.mp h
    have hline := line_label ctx blanks_nil hi blanks_nil (names.flatMap (· ++ [':']) ++ cs)
    rw [List.nil_append, List.nil_append, ih hnames] at hline
    rw [List.flatMap_cons, List.append_assoc, List.append_assoc, List.singleton_append, hline]
    rfl

theorem isIdent_of_mem_labels (cs : Chars) : ∀ n ∈ (labels cs).1, isIdent n := by
  fun_induction labels cs
  case case1 => nofun
  case case2 hi names rest hrest ih =>
    rw [hrest] at ih
    exact List.forall_mem_cons.mpr ⟨hi, ih⟩
  case case3 => nofun

end Labels

theorem line_accepted (hn : ctx.Named) (cs : Chars) :
    line ctx (accepted ctx cs) = { line ctx cs with error := none } := by
  cases h : (line ctx cs).error
  case none =>
    simp only [accepted, h]
    rw [← h]
  case some e =>
    obtain ⟨he, hl⟩ := line_of_error h
    have hnames : ∀ n ∈ labelNames cs, isIdent n := isIdent_of_mem_labels _
    simp only [accepted, h]
    have hnil : line ctx [] = {} := line_comment ctx blanks_nil .none
    rw [line_labels hnames, hl]
    rcases statement_of_error he with ⟨d, hd, hs⟩ | ⟨hd, hs⟩
    case inr => simp [hd, hs, hnil, bindings]
    case inl =>
      rw [hs] at he
      obtain ⟨_, _, stmts, _, _, hgood, hitems⟩ := items_of_error he
      simp [hd, hs, line_text_of_data? hn hd, hitems, Data.good, items_of_forall₂ hgood, bindings]

section Feed

theorem not_mem_lines (cs : Chars) : ∀ l ∈ lines cs, '\n' ∉ l := by
  have hgo acc (ha : '\n' ∉ acc) : ∀ l ∈ lines.go acc cs, '\n' ∉ l := by
    induction cs generalizing acc
    case nil =>
      unfold lines.go
      split
      case isTrue  => exact List.forall_mem_nil _
      case isFalse => exact List.forall_mem_singleton.mpr (mt List.mem_reverse.mp ha)
    case cons c cs ih =>
      by_cases hc : c = '\n'
      case pos =>
        subst hc
        refine List.forall_mem_cons.mpr ⟨?_, ih [] List.not_mem_nil⟩
        split <;> simp_all
      case neg =>
        have hgo : lines.go acc (c :: cs) = lines.go (c :: acc) cs := by simp [lines.go]
        rw [hgo]
        exact ih (c :: acc) (by simp [ha, Ne.symm hc])
  exact hgo [] List.not_mem_nil

theorem not_mem_accepted (hn : ctx.Named) (h : '\n' ∉ cs) : '\n' ∉ accepted ctx cs := by
  have hfeed {l : Chars} (hl : ∀ c ∈ l, isInert c) : '\n' ∉ l :=
    fun hm => absurd (hl _ hm) (by decide)
  unfold accepted
  split
  case h_1 => exact h
  case h_2 =>
    refine List.not_mem_append (fun hm => ?_) ?_
    case refine_1 =>
      obtain ⟨name, hname, hm⟩ := List.mem_flatMap.mp hm
      have hi : isIdent name := isIdent_of_mem_labels _ name hname
      have hm : '\n' ∈ name := by simpa using hm
      exact hfeed (fun c hc => isInert_of_isPlain (isPlain_of_isIdent hi c hc)) hm
    case refine_2 =>
      cases hd : data? ctx (unlabelled cs)
      case none   => nofun
      case some d => exact hfeed (isStatement_of_data? hn hd).inert

theorem exists_joined_of_not_mem {ls : List Chars} (h : ∀ l ∈ ls, '\n' ∉ l) :
    ∃ cs, Joined ls cs := by
  induction ls
  case nil => exact ⟨[], .nil⟩
  case cons l ls ih =>
    have ⟨hl, hls⟩ := List.forall_mem_cons.mp h
    have ⟨cs, hcs⟩ := ih hls
    exact ⟨l ++ '\n' :: cs, .cons hl hcs⟩

end Feed

namespace State

variable {st : State}

-- The state as it would be if no line had been rejected.
def unrejected (st : State) : State :=
  { st with session := st.session.unrejected }

-- Lines with those that are rejected replaced by what they are carried out for.
def repaired (st : State) (number : Nat) : List Chars → List Chars
  | [] => []
  | cs :: rest => accepted st.context cs :: repaired (st.step number cs) (number + 1) rest

-- The complaints about lines that are numbered from `number` on.
def rejections (st : State) (number : Nat) : List Chars → List Diagnostic
  | [] => []
  | cs :: rest =>
    ((line st.context cs).error.map (.rejected number)).toList ++
      rejections (st.step number cs) (number + 1) rest

theorem named_step (hn : st.context.Named) (number : Nat) (cs : Chars) :
    (st.step number cs).context.Named := by
  intro p hp
  cases List.mem_append.mp hp
  case inr hp => exact hn p hp
  case inl hp => exact (constantName?_of_line (Option.mem_toList.mp hp)).right

theorem reports_line (s : Session) (ctx : Context) (cs : Chars) :
    s.Reports (·.run (line ctx cs).stmts) :=
  s.reports_run fun st hst d he => by
    have := movable_line ctx cs st hst
    rw [he] at this
    exact this

-- A line and the one that replaces it lead to the same state but for the complaint.
theorem step_accepted (hn : st.context.Named) (number : Nat) (cs : Chars) :
    st.unrejected.step number (accepted st.context cs) = (st.step number cs).unrejected := by
  have hrun := (reports_line st.session st.context cs).unrejected
  have hctx : (⟨st.unrejected.constants, st.unrejected.session.room⟩ : Context) = st.context := rfl
  have hctx' : (⟨st.constants, st.session.room⟩ : Context) = st.context := rfl
  simp only [step, hctx, hctx', line_accepted hn]
  cases (line st.context cs).error
  case none => simp only [unrejected, hrun]
  case some e => simp only [unrejected, hrun, Session.unrejected_report_rejected]

theorem steps_repaired (hn : st.context.Named) (number : Nat) (ls : List Chars) :
    st.unrejected.steps number (st.repaired number ls) = (st.steps number ls).unrejected := by
  induction ls generalizing st number
  case nil => rfl
  case cons cs ls ih =>
    rw [repaired, steps, step_accepted hn, ih (named_step hn number cs), steps]

theorem not_mem_repaired (hn : st.context.Named) {ls : List Chars} (h : ∀ l ∈ ls, '\n' ∉ l)
    (number : Nat) : ∀ l ∈ st.repaired number ls, '\n' ∉ l := by
  induction ls generalizing st number
  case nil => nofun
  case cons cs ls ih =>
    have ⟨hcs, hls⟩ := List.forall_mem_cons.mp h
    exact List.forall_mem_cons.mpr
      ⟨not_mem_accepted hn hcs, ih (named_step hn number cs) hls (number + 1)⟩

theorem filter_isRejected_step (st : State) (number : Nat) (cs : Chars) :
    ((st.step number cs).session.diagnostics.filter (·.isRejected)).toList =
      (st.session.diagnostics.filter (·.isRejected)).toList ++
        ((line st.context cs).error.map (.rejected number)).toList := by
  have hrun := (reports_line st.session st.context cs).filter_isRejected
  have hctx : (⟨st.constants, st.session.room⟩ : Context) = st.context := rfl
  simp only [step, hctx]
  cases (line st.context cs).error
  case none => simp [hrun]
  case some e =>
    simp only [Session.report]
    rw [Array.filter_push_of_pos rfl (by simp), hrun, Array.toList_push]
    rfl

theorem filter_isRejected_steps (st : State) (number : Nat) (ls : List Chars) :
    ((st.steps number ls).session.diagnostics.filter (·.isRejected)).toList =
      (st.session.diagnostics.filter (·.isRejected)).toList ++ st.rejections number ls := by
  induction ls generalizing st number
  case nil => simp [steps, rejections]
  case cons cs ls ih =>
    rw [steps, ih, filter_isRejected_step, rejections, List.append_assoc]

end State

-- How an object compares to that of the same text without its rejected lines.
structure Repairs (o o' : Object) (rejections : List Diagnostic) : Prop where
  base        : o'.base = o.base
  image       : o'.image = o.image
  symbols     : o'.symbols = o.symbols
  relocations : o'.relocations = o.relocations
  diagnostics : o'.diagnostics = o.diagnostics.filter (!·.isRejected)
  rejected    : (o.diagnostics.filter (·.isRejected)).toList = rejections

-- A line that is rejected binds its labels and is carried out up to its first bad item of data.
-- Where each is replaced by a line that asks for just that, the text assembles to the same object
-- without the complaints, of which each names the number of its line.
theorem assemble_repaired :
    (∀ (st : State) (number : Nat) (cs : Chars) (e : SourceError),
      (line st.context cs).error = some e → st.Rejects number cs e (st.step number cs)) ∧
    ∀ (source : String) (base : Word),
      let st : State := ⟨.start base, []⟩
      let ls := lines source.toList
      (∃ text, Joined (st.repaired 1 ls) (String.toList text)) ∧
        ∀ text, Joined (st.repaired 1 ls) (String.toList text) →
          Repairs (assemble source base) (assemble text base) (st.rejections 1 ls) := by
  refine ⟨fun st number cs e h => State.rejects_step h number, fun source base => ?_⟩
  intro st ls
  have hn : st.context.Named := nofun
  refine ⟨?joined, fun text ht => ?repairs⟩
  case joined =>
    have hfeed := State.not_mem_repaired hn (not_mem_lines source.toList) 1
    have ⟨cs, hcs⟩ := exists_joined_of_not_mem hfeed
    exact ⟨String.ofList cs, by rwa [String.toList_ofList]⟩
  case repairs =>
    have hst : st.unrejected = st := rfl
    have hfixed : assemble text base = (st.steps 1 ls).unrejected.session.toObject := by
      rw [assemble, steps_of_joined ht, ← State.steps_repaired hn, hst]
    rw [hfixed]
    exact ⟨rfl, rfl, rfl, rfl, rfl, State.filter_isRejected_steps st 1 ls⟩

-- A line of data with a bad operand, a label that is bound already, a number that is too large,
-- and a jump back.
def faulty : String :=
  "start: .Word 1, start ,2a, 3 ; data\nstart: again: addi x1, x2, 0x1_0000_0000\nj again"

def mended : String :=
  "start:.word 1, start\nstart:again:\nj again"

theorem assemble_repaired_faulty :
    let st : State := ⟨.start 0x1000, []⟩
    let data := "start: .Word 1, start ,2a, 3 ; data".toList
    ((line st.context data).error = some (.number "2a") ∧
      st.Rejects 1 data (.number "2a") (st.step 1 data)) ∧
    Repairs (assemble faulty 0x1000) (assemble mended 0x1000)
      [.rejected 1 (.number "2a"), .rejected 2 (.range32 "0x1_0000_0000")] := by
  intro st data
  have ⟨hrejects, hrepairs⟩ := assemble_repaired
  have herror : (line st.context data).error = some (.number "2a") := by decide +kernel
  have hlines : st.repaired 1 (lines faulty.toList) =
      ["start:.word 1, start".toList, "start:again:".toList, "j again".toList] := by
    decide +kernel
  have hrejections : st.rejections 1 (lines faulty.toList) =
      [.rejected 1 (.number "2a"), .rejected 2 (.range32 "0x1_0000_0000")] := by
    decide +kernel
  obtain ⟨_, hmended⟩ := hrepairs faulty 0x1000
  rw [hlines, hrejections] at hmended
  refine ⟨⟨herror, hrejects st 1 data _ herror⟩, hmended mended ?_⟩
  exact .cons (by decide) (.cons (by decide) (.last (by decide) (by decide)))

end RV32IM.Source
