import RV32IM.Proofs.Link.Shift
import RV32IM.Proofs.Source.Name

-- Source text at two bases. What a line means depends on its place only in that a run of zeros may
-- be refused for want of room, and no line aligns to more than a page or binds a name to an address
-- of its own. So a text that is assembled without a complaint at two pages gives one program, moved
-- from one to the other.

namespace RV32IM.Source

section Movable

variable {ctx : Context} {cs : Chars} {ops : List Chars} {op : Op} {st : Stmt} {stmts : List Stmt}

theorem movable_instruction (h : instruction ctx op ops = .ok st) : st.Movable := by
  unfold instruction at h
  repeat' first
    | split at h
    | obtain ⟨_, _, h⟩ := exists_of_bind_eq_ok h
  all_goals cases h <;> trivial

theorem movable_branchOnZero {hop : op.format = .branch}
    (h : branchOnZero ctx op hop ops = .ok stmts) : ∀ st ∈ stmts, st.Movable := by
  unfold branchOnZero at h
  split at h
  case h_2 => cases h
  case h_1 =>
    obtain ⟨_, _, h⟩ := exists_of_bind_eq_ok h
    obtain ⟨_, _, h⟩ := exists_of_bind_eq_ok h
    cases h
    exact List.forall_mem_singleton.mpr trivial

theorem movable_li (rd : Reg) (v : Word) : ∀ st ∈ Stmt.li rd v, st.Movable := by
  unfold Stmt.li
  split
  case isTrue => exact List.forall_mem_singleton.mpr trivial
  case isFalse =>
    simp only
    split <;> simp [Stmt.Movable, Stmt.upper, Stmt.immediate]

theorem movable_mnemonic {mn : String} (h : mnemonic ctx mn ops = .ok stmts) :
    ∀ st ∈ stmts, st.Movable := by
  unfold mnemonic at h
  split at h
  case h_4 =>
    obtain ⟨_, _, h⟩ := exists_of_bind_eq_ok h
    obtain ⟨_, _, h⟩ := exists_of_bind_eq_ok h
    cases h
    exact movable_li _ _
  case h_10 | h_11 => exact movable_branchOnZero h
  case h_21 =>
    split at h
    case h_2 => cases h
    case h_1 =>
      obtain ⟨_, hi, h⟩ := exists_of_bind_eq_ok h
      cases h
      exact List.forall_mem_singleton.mpr (movable_instruction hi)
  all_goals
    repeat obtain ⟨_, _, h⟩ := exists_of_bind_eq_ok h
    cases h
  all_goals
    simp [Stmt.Movable, Stmt.halt, Stmt.nop, Stmt.mv, Stmt.la, Stmt.call, Stmt.j, Stmt.jr, Stmt.ret,
      Stmt.immediate, Stmt.upper, Stmt.jump]

theorem movable_items {read : Chars → Read Stmt} (h : ∀ op st, read op = .ok st → st.Movable)
    (ops : List Chars) : ∀ st ∈ (items read ops).stmts, st.Movable := by
  induction ops
  case nil => exact List.forall_mem_nil _
  case cons op ops ih =>
    unfold items
    split
    case h_1 => exact List.forall_mem_nil _
    case h_2 st hst => exact List.forall_mem_cons.mpr ⟨h op st hst, ih⟩

theorem movable_ofRead {x : Read (List Stmt)}
    (h : ∀ stmts, x = .ok stmts → ∀ st ∈ stmts, st.Movable) :
    ∀ st ∈ (Reading.ofRead x).stmts, st.Movable := by
  cases x
  case ok stmts => exact h stmts rfl
  case error => exact List.forall_mem_nil _

theorem movable_wordItem (h : wordItem ctx cs = .ok st) : st.Movable := by
  unfold wordItem at h
  repeat' split at h
  all_goals cases h <;> trivial

theorem movable_numberItem {n : Nat} (h : numberItem ctx n cs = .ok st) : st.Movable := by
  obtain ⟨_, _, h⟩ := exists_of_bind_eq_ok h
  cases h
  trivial

theorem dvd_pageSize {n : Nat} (h : isPowerOfTwo n) : n ∣ pageSize := by
  have ⟨k, hk, he⟩ := List.any_eq_true.mp h
  rw [beq_iff_eq] at he
  rw [he, Nat.shiftLeft_eq, Nat.one_mul]
  exact Nat.pow_dvd_pow 2 (Nat.le_of_lt_succ (List.mem_range.mp hk))

theorem movable_stringBytes {terminated : Bool} (h : stringBytes terminated cs = .ok stmts) :
    ∀ st ∈ stmts, st.Movable := by
  obtain ⟨_, _, h⟩ := exists_of_bind_eq_ok h
  cases h
  simp [Stmt.Movable]

theorem movable_alignPower (h : alignPower ctx ops = .ok stmts) : ∀ st ∈ stmts, st.Movable := by
  unfold alignPower at h
  split at h
  case h_2 => cases h
  case h_1 =>
    obtain ⟨n, _, h⟩ := exists_of_bind_eq_ok h
    split at h
    case isFalse => cases h
    case isTrue hn =>
      cases h
      refine List.forall_mem_singleton.mpr ?_
      rw [Stmt.Movable, Nat.shiftLeft_eq, Nat.one_mul]
      exact Nat.pow_dvd_pow 2 (show n.toNat ≤ 12 by omega)

theorem movable_alignBytes (h : alignBytes ctx ops = .ok stmts) : ∀ st ∈ stmts, st.Movable := by
  unfold alignBytes at h
  split at h
  case h_2 => cases h
  case h_1 =>
    obtain ⟨n, _, h⟩ := exists_of_bind_eq_ok h
    split at h
    case isFalse => cases h
    case isTrue hn =>
      cases h
      exact List.forall_mem_singleton.mpr (dvd_pageSize hn.right)

-- The number of zeros is as it is written, wherever they are.
theorem stmts_zeroRun (h : zeroRun ctx ops = .ok stmts) :
    ∃ op v, ops = [op] ∧ ctx.value op = .ok v ∧ stmts = [.zeros v.toNat] := by
  unfold zeroRun at h
  split at h
  case h_2 => cases h
  case h_1 op =>
    obtain ⟨v, hv, h⟩ := exists_of_bind_eq_ok h
    refine ⟨op, v, rfl, hv, ?_⟩
    by_cases hneg : v < 0
    case pos =>
      rw [if_pos hneg] at h
      cases h
    case neg =>
      rw [if_neg hneg] at h
      by_cases hroom : v.toNat > ctx.room
      case pos =>
        simp only [if_pos hroom] at h
        cases h
      case neg =>
        simp only [if_neg hroom] at h
        cases h
        rfl

theorem movable_zeroRun (h : zeroRun ctx ops = .ok stmts) : ∀ st ∈ stmts, st.Movable := by
  obtain ⟨_, _, _, _, rfl⟩ := stmts_zeroRun h
  exact List.forall_mem_singleton.mpr trivial

theorem movable_directive (name : String) (rest : Chars) :
    ∀ st ∈ (directive ctx name rest).stmts, st.Movable := by
  unfold directive
  split
  case h_1 => exact movable_items (fun _ _ => movable_wordItem) _
  case h_2 | h_3 => exact movable_items (fun _ _ => movable_numberItem) _
  case h_4 | h_5 | h_6 => exact movable_ofRead fun _ => movable_stringBytes
  case h_7 | h_8 => exact movable_ofRead fun _ => movable_zeroRun
  case h_9 | h_10 => exact movable_ofRead fun _ => movable_alignPower
  case h_11 => exact movable_ofRead fun _ => movable_alignBytes
  all_goals simp

theorem movable_statement (ctx : Context) (cs : Chars) :
    ∀ st ∈ (statement ctx cs).stmts, st.Movable := by
  simp only [statement]
  split
  case h_1 =>
    split
    case isTrue => split <;> exact List.forall_mem_nil _
    case isFalse => exact List.forall_mem_nil _
  case h_2 =>
    split
    case isTrue  => exact movable_directive _ _
    case isFalse => exact movable_ofRead fun _ => movable_mnemonic

theorem movable_line (ctx : Context) (cs : Chars) : ∀ st ∈ (line ctx cs).stmts, st.Movable := by
  simp only [line]
  refine List.forall_mem_append.mpr ⟨List.forall_mem_map.mpr fun _ _ => trivial, ?_⟩
  split
  case isTrue  => exact List.forall_mem_nil _
  case isFalse => exact movable_statement _ _

end Movable

section Room

variable {constants : List (String × Int)} {room room' : Nat} {cs : Chars}

theorem exists_of_ofRead {x : Read (List Stmt)} (h : (Reading.ofRead x).error = none) :
    ∃ stmts, x = .ok stmts := by
  cases x
  case ok stmts => exact ⟨stmts, rfl⟩
  case error => cases h

-- A run of zeros is the same unless it is refused.
theorem zeroRun_room {ops : List Chars}
    (h : (Reading.ofRead (zeroRun ⟨constants, room⟩ ops)).error = none)
    (h' : (Reading.ofRead (zeroRun ⟨constants, room'⟩ ops)).error = none) :
    zeroRun ⟨constants, room'⟩ ops = zeroRun ⟨constants, room⟩ ops := by
  obtain ⟨stmts, h⟩ := exists_of_ofRead h
  obtain ⟨stmts', h'⟩ := exists_of_ofRead h'
  obtain ⟨op, v, rfl, hv, rfl⟩ := stmts_zeroRun h
  obtain ⟨_, v', ho, hv', rfl⟩ := stmts_zeroRun h'
  cases ho
  have he : Except.ok v = Except.ok v' := hv.symm.trans hv'
  cases he
  exact h'.trans h.symm

theorem directive_room {name : String} {rest : Chars}
    (h : (directive ⟨constants, room⟩ name rest).error = none)
    (h' : (directive ⟨constants, room'⟩ name rest).error = none) :
    directive ⟨constants, room'⟩ name rest = directive ⟨constants, room⟩ name rest := by
  simp only [directive] at h h' ⊢
  split
  case h_7 | h_8 => exact congrArg _ (zeroRun_room h h')
  all_goals rfl

theorem statement_room (h : (statement ⟨constants, room⟩ cs).error = none)
    (h' : (statement ⟨constants, room'⟩ cs).error = none) :
    statement ⟨constants, room'⟩ cs = statement ⟨constants, room⟩ cs := by
  simp only [statement] at h h' ⊢
  split
  case h_1 => rfl
  case h_2 hn =>
    rw [hn] at h h'
    split
    case isTrue hd =>
      simp only [if_pos hd] at h h'
      exact directive_room h h'
    case isFalse => rfl

-- A line means the same wherever it is not rejected.
theorem line_room (h : (line ⟨constants, room⟩ cs).error = none)
    (h' : (line ⟨constants, room'⟩ cs).error = none) :
    line ⟨constants, room'⟩ cs = line ⟨constants, room⟩ cs := by
  simp only [line] at h h' ⊢
  split
  case isTrue  => rfl
  case isFalse hne =>
    rw [if_neg hne] at h h'
    rw [statement_room h h']

end Room

namespace State

-- Two runs over the same lines at two bases, between lines.
structure Shifted (δ : Word) (st st' : State) : Prop where
  session   : st.session.Shifted δ st'.session
  constants : st'.constants = st.constants

variable {δ : Word} {st st' : State} {number : Nat} {cs : Chars} {ls : List Chars}

theorem grows_step (st : State) (number : Nat) (cs : Chars) :
    ∃ fs, st.session.Grows fs (st.step number cs).session := by
  obtain ⟨fs, hg⟩ := st.session.grows_run (line ⟨st.constants, st.session.room⟩ cs).stmts
  refine ⟨fs, ?_⟩
  simp only [step]
  split
  case h_1 => exact hg.report _
  case h_2 => exact hg

theorem grows_steps (st : State) (number : Nat) (ls : List Chars) :
    ∃ fs, st.session.Grows fs (st.steps number ls).session := by
  induction ls generalizing st number
  case nil => exact ⟨_, .refl⟩
  case cons cs ls ih =>
    have ⟨_, hs⟩ := st.grows_step number cs
    have ⟨_, ht⟩ := ih (st.step number cs) (number + 1)
    exact ⟨_, hs.trans ht⟩

-- A line after which nothing is reported is carried out in full.
theorem step_of_clean (h : (st.step number cs).session.diagnostics = #[]) :
    let r := line ⟨st.constants, st.session.room⟩ cs
    r.error = none ∧
      st.step number cs = ⟨st.session.run r.stmts, r.constant.toList ++ st.constants⟩ := by
  intro r
  simp only [step] at h ⊢
  split at h
  case h_1 => simp [Session.report] at h
  case h_2 he => exact ⟨he, rfl⟩

namespace Shifted

theorem step (h : st.Shifted δ st') (hδ : pageSize ∣ δ.toNat)
    (hs : (st.step number cs).session.diagnostics = #[])
    (hs' : (st'.step number cs).session.diagnostics = #[]) :
    (st.step number cs).Shifted δ (st'.step number cs) := by
  obtain ⟨he, hstep⟩ := step_of_clean hs
  obtain ⟨he', hstep'⟩ := step_of_clean hs'
  rw [h.constants] at he' hstep'
  rw [line_room he he'] at hstep'
  rw [hstep] at hs ⊢
  rw [hstep'] at hs' ⊢
  exact ⟨h.session.run hδ (movable_line _ _) hs hs', rfl⟩

theorem steps (h : st.Shifted δ st') (hδ : pageSize ∣ δ.toNat)
    (hs : (st.steps number ls).session.diagnostics = #[])
    (hs' : (st'.steps number ls).session.diagnostics = #[]) :
    (st.steps number ls).Shifted δ (st'.steps number ls) := by
  induction ls generalizing st st' number
  case nil => exact h
  case cons cs ls ih =>
    have ⟨_, hg⟩ := (st.step number cs).grows_steps (number + 1) ls
    have ⟨_, hg'⟩ := (st'.step number cs).grows_steps (number + 1) ls
    exact ih (h.step hδ (hg.clean hs) (hg'.clean hs')) hs hs'

end Shifted

end State

section Assemble

variable {source : String} {base base' : Word} {cfg cfg' : LinkConfig} {l l' : Linked}

theorem emits_assemble (source : String) (base : Word) :
    (assemble source base).base = base ∧ ∃ fs, (assemble source base).Emits fs := by
  have ⟨fs, hg⟩ := State.grows_steps ⟨.start base, []⟩ 1 (lines source.toList)
  exact ⟨hg.base_eq, fs, Session.emits_grows (Session.emits_start base) hg⟩

-- A text that is assembled without a complaint on two pages gives the same object on both.
theorem shifted_assemble (hδ : pageSize ∣ (base' - base).toNat)
    (h : (assemble source base).diagnostics = #[])
    (h' : (assemble source base').diagnostics = #[]) :
    (assemble source base).Shifted (base' - base) (assemble source base') := by
  have hstart := Session.shifted_start base (base' - base)
  rw [add_sub_cancel] at hstart
  have hs : State.Shifted (base' - base) ⟨.start base, []⟩ ⟨.start base', []⟩ := ⟨hstart, rfl⟩
  exact (hs.steps hδ h h').session.toShifted

theorem dvd_toNat_sub (h : base.toNat % pageSize = 0) (h' : base'.toNat % pageSize = 0) :
    pageSize ∣ (base' - base).toNat := by
  rw [pageSize] at *
  rw [BitVec.toNat_sub]
  omega

-- A text that is linked without a complaint at two bases is the same program at both. Linking
-- succeeds only on a page, and that it reports nothing says that assembling did not either and that
-- each object was linked for the base at which it was assembled.
theorem assemble_shift (h : (assemble source base).link cfg = .ok l) (hc : l.clean)
    (h' : (assemble source base').link cfg' = .ok l') (hc' : l'.clean) :
    (assemble source base).Shifted (base' - base) (assemble source base') ∧
      (assemble source base).Relinked (base' - base) l l' := by
  have ⟨hbase, fs, ho⟩ := emits_assemble source base
  have ⟨hbase', fs', ho'⟩ := emits_assemble source base'
  have ⟨_, _, hd⟩ := Object.link_eq_ok ho h
  have ⟨_, _, hd'⟩ := Object.link_eq_ok ho' h'
  have ha := Object.aligned_of_link h
  have ha' := Object.aligned_of_link h'
  rw [hbase] at ha
  rw [hbase'] at ha'
  have hshift := shifted_assemble (dvd_toNat_sub ha ha') (hd.mp hc).left.left (hd'.mp hc').left.left
  exact ⟨hshift, Object.shifted_link hshift ho h hc h'⟩

-- A jump to itself, and a word that holds its address.
def loopText : String :=
  "loop:\nj loop\n.word loop"

def loopStmts : List Stmt := [.label "loop", .j (.label "loop"), .wordOf "loop"]

def loopFragments : List Fragment := [
  .pending .jump "loop" (Instr.encodeJump Op.jal.fixedBits .zero 0),
  .pending .word "loop" 0]

theorem assemble_loop (base : Word) : assemble loopText base = .ofStmts base loopStmts := by
  have hlines : lines loopText.toList =
      ["loop:".toList, "j loop".toList, ".word loop".toList] := rfl
  have hlabel (ctx : Context) : line ctx "loop:".toList = { stmts := [.label "loop"] } := by cbv
  have hjump (room : Nat) :
      line ⟨[], room⟩ "j loop".toList = { stmts := [.j (.label "loop")] } := by cbv
  have hword (room : Nat) :
      line ⟨[], room⟩ ".word loop".toList = { stmts := [.wordOf "loop"] } := by cbv
  rw [assemble, hlines]
  simp only [State.steps, State.step, hlabel, hjump, hword, Option.toList_none, List.nil_append]
  rfl

theorem ofStmts_loop (base : Word) :
    ∃ symbols, Object.ofStmts base loopStmts =
        ⟨base, (Fragment.image loopFragments).toArray, symbols,
          (Fragment.relocations base loopFragments).toArray, #[]⟩ ∧
      symbols.address? "loop" = some base := by
  obtain ⟨t, ht⟩ :=
    SymbolTable.add_eq_ok_iff.mpr (SymbolTable.get?_empty (Symbol.mk "loop" base false).name)
  have hg := SymbolTable.get?_of_add_eq_ok ht
  refine ⟨t, ?_, by simp [SymbolTable.address?, hg]⟩
  simp [Object.ofStmts, loopStmts, Stmt.j, Stmt.jump, Session.run, Session.exec, Session.start,
    Session.label, Session.displacement, Session.record, Session.word, Session.bytes,
    Session.cursor, Session.define, ht, loopFragments, Fragment.bytes, Fragment.relocations,
    Fragment.after]

theorem link_loop (base : Word) (hbase : base.toNat % pageSize = 0)
    (hfit : base.toNat + 8 + pageSize ≤ addressLimit) :
    ∃ l, (assemble loopText base).link { base, stackSize := 0 } = .ok l ∧ l.clean ∧
      l.image = (Instr.jump .jal .zero 0).encode.toBytes ++ base.toBytes := by
  obtain ⟨symbols, ho, hloop⟩ := ofStmts_loop base
  rw [assemble_loop]
  have he : (Object.ofStmts base loopStmts).Emits loopFragments := by
    rw [ho]
    exact ⟨rfl, rfl⟩
  have ⟨l, hl⟩ : ∃ l, (Object.ofStmts base loopStmts).link { base, stackSize := 0 } = .ok l := by
    rw [ho]
    exact Object.exists_link hbase (by simpa [loopFragments, Fragment.bytes] using hfit) rfl
  obtain ⟨himage, _, hclean⟩ := Object.link_eq_ok he hl
  rw [ho] at himage hclean
  generalize (Fragment.relocations base loopFragments).toArray = relocs at himage hclean
  have hself : base - base = 0 := sub_self base
  have hjump : Relocation.value ⟨base, .jump, "loop"⟩ symbols relocs = .ok (base - base) :=
    Relocation.value_displacement_eq_ok (.inl rfl) hloop (by rw [hself]; rfl)
  have hword : Relocation.value ⟨base + 4#32, .word, "loop"⟩ symbols relocs = .ok base :=
    Relocation.value_word_eq_ok hloop
  rw [hself] at hjump
  refine ⟨l, hl, hclean.mpr ⟨⟨rfl, rfl⟩, ?_⟩, himage.trans ?_⟩
  case refine_1 =>
    simp [loopFragments, Fragment.allFaults, Fragment.faults, Relocation.patch, Fragment.after,
      Fragment.bytes, hjump, hword, Except.map]
  case refine_2 =>
    simp only [loopFragments, Fragment.linkedImage, Fragment.after, Fragment.bytes,
      Word.length_toBytes, Fragment.linked_of_value hjump, Fragment.linked_of_value hword,
      List.append_nil]
    rfl

theorem assemble_shift_loop :
    ∃ l l', (assemble loopText 0x1000).link { base := 0x1000, stackSize := 0 } = .ok l ∧ l.clean ∧
      (assemble loopText 0x3000).link { base := 0x3000, stackSize := 0 } = .ok l' ∧ l'.clean ∧
      (assemble loopText 0x1000).Shifted 0x2000 (assemble loopText 0x3000) ∧
      (assemble loopText 0x1000).Relinked 0x2000 l l' ∧
      l.image = [0x6f, 0, 0, 0, 0, 0x10, 0, 0] ∧ l'.image = [0x6f, 0, 0, 0, 0, 0x30, 0, 0] := by
  have hfit (base : Word) (h : base.toNat ≤ 0x3000) :
      base.toNat + 8 + pageSize ≤ addressLimit := by
    rw [pageSize, addressLimit_eq]
    omega
  obtain ⟨l, hl, hc, himage⟩ := link_loop 0x1000 rfl (hfit _ (by decide))
  obtain ⟨l', hl', hc', himage'⟩ := link_loop 0x3000 rfl (hfit _ (by decide))
  obtain ⟨hs, hr⟩ := assemble_shift hl hc hl' hc'
  refine ⟨l, l', hl, hc, hl', hc', hs, hr, ?_, ?_⟩
  case refine_1 =>
    rw [himage]
    decide
  case refine_2 =>
    rw [himage']
    decide

end Assemble

end RV32IM.Source
