import RV32IM.Proofs.Session.Report
import RV32IM.Proofs.Source.Shift
import RV32IM.Proofs.Source.Spelling

-- Lines that are rejected. Such a line binds its labels, and if it is one of data, the operands
-- before the first bad one are carried out. It does nothing else.

namespace RV32IM

-- What the item of a line of data emits.
def Stmt.fragment? : Stmt → Option Fragment
  | word w => some (.fixed w.toBytes)
  | wordOf symbol => some (.pending .word symbol 0)
  | bytes bs => some (.fixed bs)
  | _ => none

namespace Session

-- The session after fragments have been emitted and nothing else has been done.
def emit (s : Session) (fs : List Fragment) : Session :=
  { s with
    image := s.image ++ Fragment.image fs
    relocations := s.relocations ++ Fragment.relocations s.cursor fs }

variable {s : Session} {st : Stmt} {stmts : List Stmt} {f : Fragment} {fs gs : List Fragment}

theorem emit_nil (s : Session) : s.emit [] = s := by
  simp [emit, Fragment.relocations]

theorem cursor_emit (s : Session) (fs : List Fragment) :
    (s.emit fs).cursor = s.cursor + BitVec.ofNat 32 (Fragment.image fs).length := by
  simp only [cursor, emit, ← Array.length_toList, Array.toList_appendList, List.length_append,
    BitVec.ofNat_add, BitVec.add_assoc]

theorem emit_append (s : Session) (fs gs : List Fragment) :
    (s.emit fs).emit gs = s.emit (fs ++ gs) := by
  have hi : s.image ++ Fragment.image fs ++ Fragment.image gs =
      s.image ++ Fragment.image (fs ++ gs) := Array.ext' (by simp)
  have hr : s.relocations ++ Fragment.relocations s.cursor fs ++
        Fragment.relocations (s.emit fs).cursor gs =
      s.relocations ++ Fragment.relocations s.cursor (fs ++ gs) :=
    Array.ext' (by simp [cursor_emit, Fragment.relocations_append])
  simp only [emit] at hr ⊢
  rw [hr, hi]

theorem exec_of_fragment? (h : st.fragment? = some f) (s : Session) : s.exec st = s.emit [f] := by
  cases st
  case word | wordOf | bytes =>
    cases h
    simp [exec, emit, word, bytes, record, Fragment.relocations, Fragment.bytes]
  all_goals cases h

theorem run_of_fragment? (h : List.Forall₂ (fun st f => st.fragment? = some f) stmts fs)
    (s : Session) : s.run stmts = s.emit fs := by
  induction h generalizing s
  case nil => exact s.emit_nil.symm
  case cons st f stmts fs hf _ ih =>
    have hrun : s.run (st :: stmts) = (s.exec st).run stmts := rfl
    rw [hrun, ih, exec_of_fragment? hf, emit_append, List.singleton_append]

end Session

namespace Source

open Text

-- How the directives of data read an operand.
def itemReader? (ctx : Context) : String → Option (Chars → Read Stmt)
  | ".word" => some (wordItem ctx)
  | ".half" => some (numberItem ctx 2)
  | ".byte" => some (numberItem ctx 1)
  | _ => none

-- What an operand of data may be, and what it is carried out as.
inductive Item (ctx : Context) (op : Chars) : Stmt → Prop
  | word {v : Int} {w : Word} : ctx.value op = .ok v → Item ctx op (.word w)
  | bytes {v : Int} {bs : List Byte} : ctx.value op = .ok v → Item ctx op (.bytes bs)
  | symbol : isIdent op → Item ctx op (.wordOf (String.ofList op))

-- A line of data: its directive, how that reads an operand, and the operands.
structure Data where
  name : String
  read : Chars → Read Stmt
  ops  : List Chars

-- The operands before the first bad one.
def Data.good (d : Data) : List Chars :=
  d.ops.takeWhile fun op => (d.read op).isOk

-- The data that a statement asks for, if it is a line of data.
def data? (ctx : Context) (cs : Chars) : Option Data :=
  let (head, rest) := headAndRest cs
  if constantValue? rest = none ∧ head.head? = some '.' then
    let name := String.ofList (lower head)
    (itemReader? ctx name).map (⟨name, ·, operands rest⟩)
  else none

variable {ctx : Context} {cs : Chars} {e : SourceError} {ops : List Chars}
  {read : Chars → Read Stmt} {stmts : List Stmt} {d : Data}

section Statement

theorem items_of_forall₂ (h : List.Forall₂ (fun op st => read op = .ok st) ops stmts) :
    items read ops = { stmts } := by
  induction h
  case nil => rfl
  case cons h _ ih => simp only [items, h, ih]

-- Operands are read up to the first bad one.
theorem items_of_error (h : (items read ops).error = some e) :
    ∃ bad rest stmts, ops = (ops.takeWhile fun op => (read op).isOk) ++ bad :: rest ∧
      read bad = .error e ∧
      List.Forall₂ (fun op st => read op = .ok st) (ops.takeWhile fun op => (read op).isOk) stmts ∧
      items read ops = { stmts, error := some e } := by
  induction ops
  case nil => cases h
  case cons op ops ih =>
    cases hop : read op
    case error e' =>
      simp only [items, hop, Option.some.injEq] at h
      refine ⟨op, ops, [], ?_, h ▸ hop, ?_, ?_⟩
      all_goals simp [items, hop, h, Except.isOk, Except.toBool]
    case ok st =>
      simp only [items, hop] at h
      obtain ⟨bad, rest, stmts, hops, hbad, hgood, hr⟩ := ih h
      refine ⟨bad, rest, st :: stmts, ?_, hbad, ?_, ?_⟩
      case refine_1 => simpa [hop, Except.isOk, Except.toBool] using hops
      case refine_2 => simpa [hop, Except.isOk, Except.toBool] using hgood
      case refine_3 => simp only [items, hop, hr]

theorem ofRead_of_error {x : Read (List Stmt)} (h : (Reading.ofRead x).error = some e) :
    Reading.ofRead x = { error := some e } := by
  cases x
  case ok => cases h
  case error =>
    cases h
    rfl

theorem item_of_itemReader? {name : String} {op : Chars} {st : Stmt}
    (hr : itemReader? ctx name = some read) (h : read op = .ok st) : Item ctx op st := by
  unfold itemReader? at hr
  split at hr
  case h_1 =>
    cases hr
    unfold wordItem at h
    split at h
    case h_1 hw =>
      obtain ⟨_, hv, _⟩ := exists_of_bind_eq_ok hw
      cases h
      exact .word hv
    case h_2 =>
      split at h
      case isFalse => cases h
      case isTrue hi =>
        cases h
        exact .symbol hi
  case h_2 | h_3 =>
    cases hr
    obtain ⟨_, hi, h⟩ := exists_of_bind_eq_ok h
    obtain ⟨_, hv, _⟩ := exists_of_bind_eq_ok hi
    cases h
    exact .bytes hv
  case h_4 => cases hr

theorem directive_of_itemReader? {name : String} (h : itemReader? ctx name = some read)
    (rest : Chars) : directive ctx name rest = items read (operands rest) := by
  unfold itemReader? at h
  split at h
  case h_4 => cases h
  all_goals
    cases h
    rfl

theorem directive_of_error {name : String} {rest : Chars} (hn : itemReader? ctx name = none)
    (h : (directive ctx name rest).error = some e) :
    directive ctx name rest = { error := some e } := by
  unfold directive at h ⊢
  split at h
  case h_1 | h_2 | h_3 => cases hn
  case h_4 | h_5 | h_6 | h_7 | h_8 | h_9 | h_10 | h_11 => exact ofRead_of_error h
  case h_12 | h_13 | h_14 | h_15 | h_16 => cases h
  case h_17 =>
    cases h
    rfl

-- A statement that is rejected asks for nothing but data.
theorem statement_of_error (h : (statement ctx cs).error = some e) :
    (∃ d, data? ctx cs = some d ∧ statement ctx cs = items d.read d.ops) ∨
      data? ctx cs = none ∧ statement ctx cs = { error := some e } := by
  simp only [statement, data?] at h ⊢
  cases hc : constantValue? (headAndRest cs).2
  case some value =>
    simp only [hc] at h ⊢
    refine .inr ⟨if_neg (by simp), ?_⟩
    by_cases hi : isIdent (headAndRest cs).1
    case neg => simp_all
    case pos =>
      simp only [hi, if_true] at h ⊢
      cases hv : ctx.value value <;> simp_all
  case none =>
    simp only [hc, true_and] at h ⊢
    by_cases hd : (headAndRest cs).1.head? = some '.'
    case neg =>
      simp only [if_neg hd] at h ⊢
      exact .inr ⟨trivial, ofRead_of_error h⟩
    case pos =>
      simp only [if_pos hd] at h ⊢
      cases hr : itemReader? ctx (String.ofList (lower (headAndRest cs).1))
      case none => exact .inr ⟨rfl, directive_of_error hr h⟩
      case some read => exact .inl ⟨_, rfl, directive_of_itemReader? hr _⟩

end Statement

-- The labels in front of a line.
def labelNames (cs : Chars) : List Chars :=
  (labels (trim (stripComment .outside cs))).1

-- The statement of a line.
def unlabelled (cs : Chars) : Chars :=
  (labels (trim (stripComment .outside cs))).2

def bindings (cs : Chars) : List Stmt :=
  (labelNames cs).map fun n => .label (String.ofList n)

-- What is emitted for a statement that is rejected: the items before the first bad operand if it is
-- one of data, and else nothing.
inductive Salvages (ctx : Context) (cs : Chars) (e : SourceError) : List Fragment → Prop
  | none : data? ctx cs = none → Salvages ctx cs e []
  | data {d bad rest fs} : data? ctx cs = some d → d.ops = d.good ++ bad :: rest →
    d.read bad = .error e →
    List.Forall₂ (fun op f => ∃ st, d.read op = .ok st ∧ st.fragment? = some f) d.good fs →
    Salvages ctx cs e fs

section Line

theorem line_of_error (h : (line ctx cs).error = some e) :
    (statement ctx (unlabelled cs)).error = some e ∧
      line ctx cs = { statement ctx (unlabelled cs) with
        stmts := bindings cs ++ (statement ctx (unlabelled cs)).stmts } := by
  simp only [line] at h ⊢
  by_cases hn : (unlabelled cs).isEmpty
  case pos =>
    rw [unlabelled] at hn
    rw [if_pos hn] at h
    cases h
  case neg =>
    have hn' := hn
    rw [unlabelled] at hn'
    rw [if_neg hn'] at h ⊢
    exact ⟨h, rfl⟩

theorem exists_fragment? {op : Chars} {st : Stmt} (h : Item ctx op st) :
    ∃ f, st.fragment? = some f := by
  cases h
  all_goals exact ⟨_, rfl⟩

theorem exists_fragments {name : String} (hr : itemReader? ctx name = some read)
    (h : List.Forall₂ (fun op st => read op = .ok st) ops stmts) :
    ∃ fs, List.Forall₂ (fun st f => st.fragment? = some f) stmts fs ∧
      List.Forall₂ (fun op f => ∃ st, read op = .ok st ∧ st.fragment? = some f) ops fs := by
  induction h
  case nil => exact ⟨[], .nil, .nil⟩
  case cons hst _ ih =>
    have ⟨f, hf⟩ := exists_fragment? (item_of_itemReader? hr hst)
    have ⟨fs, hstmts, hops⟩ := ih
    exact ⟨f :: fs, .cons hf hstmts, .cons ⟨_, hst, hf⟩ hops⟩

theorem exists_itemReader?_of_data? (h : data? ctx cs = some d) :
    itemReader? ctx d.name = some d.read ∧ ∀ op ∈ d.ops, trim op = op := by
  simp only [data?] at h
  split at h
  case isFalse => cases h
  case isTrue =>
    obtain ⟨read, hr, rfl⟩ := Option.map_eq_some_iff.mp h
    refine ⟨hr, fun op hop => ?_⟩
    simp only [operands] at hop
    split at hop
    case h_1 => cases hop
    case h_2 =>
      obtain ⟨p, _, rfl⟩ := List.mem_map.mp hop
      exact trim_trim p

-- The items of a line of data are carried out as what they emit.
theorem exists_salvages (h : (statement ctx cs).error = some e) :
    ∃ fs, Salvages ctx cs e fs ∧ (statement ctx cs).constant = none ∧
      ∀ s : Session, s.run (statement ctx cs).stmts = s.emit fs := by
  rcases statement_of_error h with ⟨d, hd, hs⟩ | ⟨hd, hs⟩
  case inr => exact ⟨[], .none hd, by rw [hs], fun s => by rw [hs, s.emit_nil]; rfl⟩
  case inl =>
    rw [hs] at h ⊢
    have ⟨hr, _⟩ := exists_itemReader?_of_data? hd
    have ⟨bad, rest, stmts, hops, hbad, hgood, hitems⟩ := items_of_error h
    have ⟨fs, hstmts, hfs⟩ := exists_fragments hr hgood
    rw [hitems]
    exact ⟨fs, .data hd hops hbad hfs, rfl, Session.run_of_fragment? hstmts⟩

end Line

end Source

-- Whether two sessions are the same but for the names that are bound and what was reported.
structure Session.SameCode (s t : Session) : Prop where
  base        : t.base = s.base
  image       : t.image = s.image
  relocations : t.relocations = s.relocations
  nextAnchor  : t.nextAnchor = s.nextAnchor

namespace Session

variable {s t u : Session}

theorem SameCode.trans (h : s.SameCode t) (h' : t.SameCode u) : s.SameCode u where
  base        := h'.base.trans h.base
  image       := h'.image.trans h.image
  relocations := h'.relocations.trans h.relocations
  nextAnchor  := h'.nextAnchor.trans h.nextAnchor

theorem sameCode_label (s : Session) (name : String) : s.SameCode (s.label name) := by
  unfold label
  split
  case isTrue => exact ⟨rfl, rfl, rfl, rfl⟩
  case isFalse =>
    unfold define
    split <;> exact ⟨rfl, rfl, rfl, rfl⟩

theorem sameCode_bindings (s : Session) (cs : Source.Chars) :
    s.SameCode (s.run (Source.bindings cs)) := by
  rw [Source.bindings]
  generalize Source.labelNames cs = names
  induction names generalizing s
  case nil => exact ⟨rfl, rfl, rfl, rfl⟩
  case cons name names ih => exact (s.sameCode_label (String.ofList name)).trans (ih _)

end Session

namespace Source.State

variable {cs : Chars} {e : SourceError} {st : State}

-- What the reading of a line depends on.
def context (st : State) : Context :=
  ⟨st.constants, st.session.room⟩

-- What a line does that is rejected.
structure Rejects (st : State) (number : Nat) (cs : Chars) (e : SourceError) (st' : State) :
    Prop where
  constants   : st'.constants = st.constants
  base        : st'.session.base = st.session.base
  nextAnchor  : st'.session.nextAnchor = st.session.nextAnchor
  symbols     : st'.session.symbols = (st.session.run (bindings cs)).symbols
  diagnostics : st'.session.diagnostics =
    (st.session.run (bindings cs)).diagnostics.push (.rejected number e)
  salvages    : ∃ fs, Salvages st.context (unlabelled cs) e fs ∧
    st'.session.image = st.session.image ++ Fragment.image fs ∧
    st'.session.relocations = st.session.relocations ++ Fragment.relocations st.session.cursor fs

theorem rejects_step (h : (line st.context cs).error = some e) (number : Nat) :
    st.Rejects number cs e (st.step number cs) := by
  have ⟨he, hl⟩ := line_of_error h
  have ⟨fs, hfs, hc, hrun⟩ := exists_salvages he
  have hsame := st.session.sameCode_bindings cs
  have hcursor : (st.session.run (bindings cs)).cursor = st.session.cursor := by
    simp only [Session.cursor, hsame.base, hsame.image]
  have hstep : st.step number cs =
      ⟨((st.session.run (bindings cs)).emit fs).report (.rejected number e), st.constants⟩ := by
    rw [context] at he hc hrun hl
    simp [step, hl, he, hc, Session.run_append, hrun]
  rw [hstep]
  constructor
  case constants   => rfl
  case base        => exact hsame.base
  case nextAnchor  => exact hsame.nextAnchor
  case symbols     => rfl
  case diagnostics => rfl
  case salvages =>
    refine ⟨fs, hfs, ?_, ?_⟩
    case refine_1 => rw [← hsame.image]; rfl
    case refine_2 => rw [← hsame.relocations, ← hcursor]; rfl

end Source.State

end RV32IM
