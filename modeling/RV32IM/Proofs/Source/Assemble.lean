import RV32IM.Proofs.Instr.Decode
import RV32IM.Proofs.Session.Growth
import RV32IM.Proofs.Source.Statement
import RV32IM.Source.Assemble

-- Assembling the text of words. Each line of it emits the word that it was printed for and does
-- nothing else, so the words come back in their order and nothing is reported, bound or left to the
-- linker.

namespace RV32IM

-- Whether the text of a word tells all of it. The operands of a fence are not printed.
def Word.Printable (w : Word) : Prop :=
  w.extractLsb' 0 7 = 0x0F → w.extractLsb' 12 3 = 0 → w = 0x0000000F

instance : DecidablePred Word.Printable :=
  fun _ => inferInstanceAs (Decidable (_ → _ → _))

theorem Word.Printable.eq_of_decode_fence {w : Word} {i : Instr} (hp : w.Printable)
    (h : Instr.decode w = some i) (hf : i.op = .fence) : w = 0x0000000F := by
  have ⟨hop, hf3⟩ := (Instr.op_eq_fence_iff h).mp hf
  exact hp hop hf3

namespace Source

theorem lines_go_append {l : Chars} (h : '\n' ∉ l) (acc cs : Chars) :
    lines.go acc (l ++ cs) = lines.go (l.reverse ++ acc) cs := by
  induction l generalizing acc
  case nil => rfl
  case cons c l hi =>
    simp only [List.mem_cons, not_or] at h
    simp [lines.go, Ne.symm h.left, hi h.right]

theorem lines_of_not_mem {l : Chars} (h : '\n' ∉ l) (hn : l ≠ []) : lines l = [l] := by
  have hg := lines_go_append h [] []
  simpa [lines, lines.go, hn] using hg

-- The first line of a text loses a carriage return at its end.
theorem exists_lines_append {l : Chars} (h : '\n' ∉ l) (cs : Chars) :
    ∃ l' b, l = l' ++ b ∧ (b = [] ∨ b = ['\r']) ∧ lines (l ++ '\n' :: cs) = l' :: lines cs := by
  rw [lines, lines_go_append h, List.append_nil]
  cases hr : l.reverse
  case nil => exact ⟨[], [], by simpa using hr, .inl rfl, rfl⟩
  case cons c acc =>
    have hl : l = acc.reverse ++ [c] := by simpa using congrArg List.reverse hr
    by_cases hc : c = '\r'
    case pos => exact ⟨acc.reverse, ['\r'], hc ▸ hl, .inr rfl, by simp [lines, lines.go, hc]⟩
    case neg => exact ⟨l, [], by simp, .inl rfl, by simp [lines, lines.go, hc, hl]⟩

theorem lines_intercalate {ls : List Chars} (h : ∀ l ∈ ls, (∀ c ∈ l, isInert c) ∧ l ≠ []) :
    lines (['\n'].intercalate ls) = ls := by
  have hne {l : Chars} (hl : ∀ c ∈ l, isInert c) {c : Char} (hc : isInert c = false) : c ∉ l :=
    fun hm => Bool.false_ne_true (hc.symm.trans (hl c hm))
  induction ls
  case nil => rfl
  case cons l ls hi =>
    have ⟨⟨hl, hn⟩, hls⟩ := List.forall_mem_cons.mp h
    cases ls
    case nil => simpa using lines_of_not_mem (hne hl rfl) hn
    case cons l' ls =>
      have ⟨k, b, hk, hb, hg⟩ := exists_lines_append (hne hl rfl) (['\n'].intercalate (l' :: ls))
      have hreturn : '\r' ∉ l := hne hl rfl
      have hnil : b = [] := hb.resolve_right fun he => hreturn (by simp [hk, he])
      rw [hnil, List.append_nil] at hk
      rw [List.intercalate_cons_cons, List.append_assoc, List.singleton_append, hg, hi hls, hk]

-- The text of a word is one line.
theorem instrText_eq (w : Word) :
    ∃ head ops, w.instrText.toList = statementText head ops ∧ IsStatement head ops := by
  unfold Word.instrText
  split
  case h_1 i _ => exact ⟨_, _, toList_text i, isStatement_text i⟩
  case h_2 =>
    split
    case isTrue  => exact ⟨_, _, rfl, isStatement_invalid⟩
    case isFalse => exact ⟨_, _, toList_data w, isStatement_data w⟩

theorem lines_instrText (ws : List Word) :
    lines ("\n".intercalate (ws.map Word.instrText)).toList = ws.map (·.instrText.toList) := by
  have h : ∀ l ∈ ws.map (·.instrText.toList), (∀ c ∈ l, isInert c) ∧ l ≠ [] := by
    intro l hl
    have ⟨w, _, hw⟩ := List.mem_map.mp hl
    have ⟨head, ops, he, hs⟩ := instrText_eq w
    rw [← hw, he]
    exact ⟨hs.inert, hs.text_ne_nil⟩
  have ht : (ws.map Word.instrText).map String.toList = ws.map (·.instrText.toList) :=
    List.map_map
  rw [String.toList_intercalate, ht]
  exact lines_intercalate h

-- The text of a word asks for the word.
theorem line_instrText (ctx : Context) {w : Word} (hp : w.Printable) :
    ∃ stmt, line ctx w.instrText.toList = { stmts := [stmt] } ∧
      ∀ s : Session, s.exec stmt = s.word w := by
  unfold Word.instrText
  split
  case h_1 i h =>
    have hi := Instr.wellFormed_of_decode h
    have he := Instr.encode_decode h (hp.eq_of_decode_fence h)
    exact ⟨_, line_text hi.imm, fun s => he ▸ s.exec_operand hi⟩
  case h_2 =>
    split
    case isTrue hz => exact ⟨_, line_invalid, fun s => hz ▸ rfl⟩
    case isFalse => exact ⟨_, line_data w, fun s => rfl⟩

theorem step_instrText {w : Word} (hp : w.Printable) (st : State) (number : Nat) :
    st.step number w.instrText.toList = { st with session := st.session.word w } := by
  have ⟨stmt, hl, hs⟩ := line_instrText ⟨st.constants, st.session.room⟩ hp
  simp [State.step, hl, Session.run, hs]

theorem steps_instrText {ws : List Word} (hp : ∀ w ∈ ws, w.Printable) (st : State) (number : Nat) :
    st.steps number (ws.map (·.instrText.toList)) =
      { st with session := ws.foldl Session.word st.session } := by
  induction ws generalizing st number
  case nil => rfl
  case cons w ws hi =>
    have ⟨h, hws⟩ := List.forall_mem_cons.mp hp
    rw [List.map_cons, State.steps, step_instrText h, hi hws]
    rfl

theorem foldl_word (s : Session) (ws : List Word) :
    ws.foldl Session.word s = s.bytes (ws.flatMap Word.toBytes) := by
  induction ws generalizing s
  case nil => simp [Session.bytes]
  case cons w ws hi =>
    rw [List.foldl_cons, hi, Session.word, Session.bytes_bytes, List.flatMap_cons]

-- Disassembly can be assembled again: the image is that of the words, whatever they are.
theorem assemble_instrText (ws : List Word) (base : Word) (h : ∀ w ∈ ws, w.Printable) :
    assemble ("\n".intercalate (ws.map Word.instrText)) base =
      { base := base
        image := (ws.flatMap Word.toBytes).toArray
        symbols := .empty
        relocations := #[]
        diagnostics := #[] } := by
  rw [assemble, lines_instrText, steps_instrText h, foldl_word]
  simp [Session.start, Session.bytes]

-- Words of every format, the word that halts, and words that are no instruction.
def sampleWords : List Word :=
  [0x123450B7, 0xFFDFF06F, 0x00008067, 0xFE208EE3, 0x0070A103, 0xFE20AC23, 0xFFF00093, 0x41F0D093,
    0x402081B3, 0x0000000F, 0x00000073, 0x00000000, 0xFFFFFFFF, 0x0000100F]

def sampleLines : List String :=
  ["lui x1, 0x12345", "jal x0, -4", "jalr x0, 0(x1)", "beq x1, x2, -4", "lw x2, 7(x1)",
    "sw x2, -8(x1)", "addi x1, x0, -1", "srai x1, x1, 31", "sub x3, x1, x2", "fence", "ecall",
    "invalid", ".word 0xffffffff", ".word 0x0000100f"]

theorem assemble_instrText_sample :
    sampleWords.map Word.instrText = sampleLines ∧ (∀ w ∈ sampleWords, w.Printable) ∧
      assemble ("\n".intercalate sampleLines) 0x80000000 =
        { base := 0x80000000
          image := (sampleWords.flatMap Word.toBytes).toArray
          symbols := .empty
          relocations := #[]
          diagnostics := #[] } := by
  have ht : sampleWords.map Word.instrText = sampleLines := by decide +kernel
  have hp : ∀ w ∈ sampleWords, w.Printable := by
    have h : sampleWords.all (decide ·.Printable) := by decide
    simpa using h
  have ha := assemble_instrText sampleWords 0x80000000 hp
  rw [ht] at ha
  exact ⟨ht, hp, ha⟩

end Source

end RV32IM
