import RV32IM.Proofs.Session.Growth
import RV32IM.Proofs.Source.Assemble
import RV32IM.Proofs.Source.Written

-- Transcripts of sessions. Calls of a session can be written down in a text, one in each line, and
-- the text assembles to the object of the session.

namespace RV32IM

namespace Source

open Text

-- A text and its lines. Each ends with a line feed but for the last, which need not.
inductive Joined : List Chars → Chars → Prop
  | nil : Joined [] []
  | last {l} : '\n' ∉ l → l ≠ [] → Joined [l] l
  | cons {l ls cs} : '\n' ∉ l → Joined ls cs → Joined (l :: ls) (l ++ '\n' :: cs)

-- Whether every run of zeros fits the room that is left when it is asked for.
def RoomFor (s : Session) : List (List Stmt) → Prop
  | [] => True
  | call :: calls => (∀ n, .zeros n ∈ call → n ≤ s.room) ∧ RoomFor (s.run call) calls

variable {st : State} {ls : List Chars} {cs : Chars}

theorem step_append_blanks {b : Chars} (hb : Blanks b) (st : State) (number : Nat) (cs : Chars) :
    st.step number (cs ++ b) = st.step number cs := by
  rw [State.step, line_append_blanks _ hb, State.step]

-- A carriage return at the end of a line is white space, so it does not matter that it is lost.
theorem steps_of_joined (h : Joined ls cs) (st : State) (number : Nat) :
    st.steps number (lines cs) = st.steps number ls := by
  induction h generalizing st number
  case nil => rfl
  case last hl hn => rw [lines_of_not_mem hl hn]
  case cons l ls cs hl _ ih =>
    have ⟨l', b, he, hb, hlines⟩ := exists_lines_append hl cs
    have hb : Blanks b := by
      rcases hb with rfl | rfl
      case inl => exact blanks_nil
      case inr => exact List.forall_mem_singleton.mpr rfl
    rw [hlines, he, State.steps, State.steps, ih, step_append_blanks hb]

-- A line does what its call does.
theorem step_of_written {call : List Stmt} (h : Written call cs) (hc : st.constants = [])
    (hr : ∀ n, .zeros n ∈ call → n ≤ st.session.room) (number : Nat) :
    st.step number cs = { st with session := st.session.run call } := by
  have hctx : (Context.mk st.constants st.session.room).constants = [] := hc
  have ⟨stmts, hl, hs⟩ := line_of_written h hctx hr
  simp [State.step, hl, hs]

theorem steps_of_written {calls : List (List Stmt)} (h : List.Forall₂ Written calls ls)
    (hc : st.constants = []) (hr : RoomFor st.session calls) (number : Nat) :
    st.steps number ls = { st with session := st.session.run calls.flatten } := by
  induction h generalizing st number
  case nil => rfl
  case cons call l calls ls hl _ ih =>
    have hrun : st.session.run (call :: calls).flatten =
        (st.session.run call).run calls.flatten := by
      rw [List.flatten_cons, Session.run_append]
    have hrest := @ih { st with session := st.session.run call } hc hr.right (number + 1)
    rw [State.steps, step_of_written hl hc hr.left, hrest, hrun]

theorem exists_joined {calls : List (List Stmt)} (h : ∀ call ∈ calls, IsCall call) :
    ∃ ls cs, List.Forall₂ Written calls ls ∧ Joined ls cs := by
  induction calls
  case nil => exact ⟨[], [], .nil, .nil⟩
  case cons call calls ih =>
    have ⟨hcall, hcalls⟩ := List.forall_mem_cons.mp h
    have ⟨l, hl, hfeed⟩ := exists_written hcall
    have ⟨ls, cs, hls, hcs⟩ := ih hcalls
    exact ⟨l :: ls, l ++ '\n' :: cs, .cons hl hls, .cons hfeed hcs⟩

-- Calls can be written down in a text, and whatever text they are written in, it assembles to the
-- object that they give directly.
theorem assemble_of_written {calls : List (List Stmt)} {base : Word}
    (hr : RoomFor (.start base) calls) :
    ((∀ call ∈ calls, IsCall call) →
        ∃ ls text, List.Forall₂ Written calls ls ∧ Joined ls (String.toList text)) ∧
      ∀ ls text, List.Forall₂ Written calls ls → Joined ls (String.toList text) →
        assemble text base = .ofStmts base calls.flatten := by
  refine ⟨fun hcalls => ?written, fun ls text h ht => ?assemble⟩
  case written =>
    have ⟨ls, cs, h, hj⟩ := exists_joined hcalls
    exact ⟨ls, String.ofList cs, h, by rwa [String.toList_ofList]⟩
  case assemble =>
    rw [assemble, steps_of_joined ht, steps_of_written h rfl hr, Object.ofStmts]

-- A run of zeros, a label, the address of a symbol, a jump to it and a jump back.
def transcriptCalls : List (List Stmt) :=
  [[.zeros 8], [.label "start"], Stmt.la ⟨5⟩ "data", [.jr ⟨5⟩], [.j (.label "start")]]

def transcriptLines : List Chars :=
  [".Zero 0x8\t; room".toList, "start :\r".toList, "  LA t0 , data#far\r".toList,
    "Jalr zero, 0 (x5)".toList, "jal\tx0 ,start".toList]

def transcript : String :=
  ".Zero 0x8\t; room\nstart :\r\n  LA t0 , data#far\r\nJalr zero, 0 (x5)\njal\tx0 ,start"

theorem written_transcriptCalls : List.Forall₂ Written transcriptCalls transcriptLines := by
  have hpad (a o b : String) (h : Blanks a.toList ∧ Blanks b.toList) :
      Padded o.toList (a.toList ++ (o.toList ++ b.toList)) := .pad h.left h.right
  have hzero : Written [.zeros 8] ".Zero 0x8\t; room".toList :=
    .directive rfl (.zeros (.hex (n := 8) (by decide)))
      (@Lays.line ".Zero".toList ["0x8".toList] [] "\t".toList "; room".toList [" 0x8".toList]
        blanks_nil (.cons (hpad " " "0x8" "" (by decide)) .nil) (by rintro c ⟨⟩; rfl) (by decide)
        (.text (.inl rfl)))
  have hstart : Written [.label "start"] "start :\r".toList :=
    @Written.label "start".toList _ rfl
      (@LaysLabel.line "start".toList [] " ".toList "\r".toList [] blanks_nil (by decide)
        (by decide) .none)
  have hload : Written (Stmt.la ⟨5⟩ "data") "  LA t0 , data#far\r".toList :=
    .instruction rfl (@SpellsInstruction.la "t0".toList "data".toList _ (.abiName ⟨5⟩) rfl)
      (@Lays.line "LA".toList _ "  ".toList [] "#far\r".toList [" t0 ".toList, " data".toList]
        (by decide)
        (.cons (hpad " " "t0" " " (by decide)) (.cons (hpad " " "data" "" (by decide)) .nil))
        (by rintro c ⟨⟩; rfl) blanks_nil (.text (.inr rfl)))
  have hzero' : SpellsImm "0".toList (.value 0) :=
    .value (.number (.decimal (v := 0) (by decide)) (by decide) (by decide))
  have hmemory : SpellsMemory ["zero".toList, "0 (x5)".toList] .zero ⟨5⟩ (.value 0) :=
    @SpellsMemory.indexed _ _ _ _ " ".toList _ _ _ (.abiName .zero) hzero' (by decide) (.text ⟨5⟩)
      (hpad "" "x5" "" (by decide))
  have hfar : Written [.jr ⟨5⟩] "Jalr zero, 0 (x5)".toList :=
    .instruction rfl (.jalr hmemory)
      (@Lays.line "Jalr".toList _ [] [] [] [" zero".toList, " 0 (x5)".toList] blanks_nil
        (.cons (hpad " " "zero" "" (by decide)) (.cons (hpad " " "0 (x5)" "" (by decide)) .nil))
        (by rintro c ⟨⟩; rfl) blanks_nil .none)
  have hback : Written [.j (.label "start")] "jal\tx0 ,start".toList :=
    .instruction rfl (@SpellsInstruction.jump .jal _ _ _ _ rfl (.text .zero) (.label rfl rfl))
      (@Lays.line "jal".toList _ [] [] [] ["\tx0 ".toList, "start".toList] blanks_nil
        (.cons (hpad "\t" "x0" " " (by decide)) (.cons (hpad "" "start" "" (by decide)) .nil))
        (by rintro c ⟨⟩; rfl) blanks_nil .none)
  exact .cons hzero (.cons hstart (.cons hload (.cons hfar (.cons hback .nil))))

theorem joined_transcriptLines : Joined transcriptLines transcript.toList :=
  .cons (by decide) (.cons (by decide) (.cons (by decide) (.cons (by decide)
    (.last (by decide) (by decide)))))

theorem assemble_transcript :
    RoomFor (.start 0x1000) transcriptCalls ∧ (∀ call ∈ transcriptCalls, IsCall call) ∧
      List.Forall₂ Written transcriptCalls transcriptLines ∧
      Joined transcriptLines transcript.toList ∧
      assemble transcript 0x1000 = .ofStmts 0x1000 transcriptCalls.flatten := by
  have hr : RoomFor (.start 0x1000) transcriptCalls := by
    simp [transcriptCalls, RoomFor, Stmt.la, Stmt.jr, Stmt.j, Stmt.upper, Stmt.immediate, Stmt.jump]
    decide
  have hcalls : ∀ call ∈ transcriptCalls, IsCall call := by
    have hzero : IsNamedImm (.value 0) := trivial
    have hback : IsNamedTarget (.label "start") := ⟨rfl, rfl⟩
    simp only [transcriptCalls, List.forall_mem_cons]
    exact ⟨.zeros (by decide), .label rfl, .la _ rfl, .immediate _ _ _ _ hzero, .jump _ _ _ hback,
      List.forall_mem_nil _⟩
  exact ⟨hr, hcalls, written_transcriptCalls, joined_transcriptLines,
    (assemble_of_written hr).right _ _ written_transcriptCalls joined_transcriptLines⟩

end Source

end RV32IM
