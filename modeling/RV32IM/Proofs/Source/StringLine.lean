import RV32IM.Proofs.Session.Anchor
import RV32IM.Proofs.Source.Quoted
import RV32IM.Proofs.Source.Written

-- Lines with a string literal. Whatever the text of the literal is, no scanner takes a part of it
-- for a comment, a label or a keyword, so the line appends the bytes that the literal denotes.

namespace RV32IM

namespace Text

variable {a cs : List Char} {c : Char}

theorem splitFirst?_append_of_forall {q : Char → Bool} (h : ∀ c ∈ a, q c = false) (cs : List Char) :
    splitFirst? q (a ++ cs) = (splitFirst? q cs).map fun x => (a ++ x.1, x.2) := by
  induction a
  case nil => simp
  case cons c a ih =>
    have ⟨hc, ha⟩ := List.forall_mem_cons.mp h
    simp [splitFirst?, hc, ih ha, Function.comp_def]

theorem mem_trim (h : c ∈ cs) (hc : isBlank c = false) : c ∈ trim cs := by
  have ⟨a, b, ha, hb, he⟩ := exists_trim cs
  have hnot {d} (hd : Blanks d) : c ∉ d := fun h => by simp [hd c h] at hc
  generalize trim cs = t at *
  subst he
  simpa [hnot ha, hnot hb] using h

end Text

namespace Source

open Numeral Text

namespace Quoted

-- A byte as an escape.
inductive SpellsByte : Byte → Chars → Prop
  | escape {e b} : (e, b) ∈ escapes → SpellsByte b ['\\', e]
  | hex {a b m n} : IsDigit 16 a m → IsDigit 16 b n →
    SpellsByte (.ofNat 8 (m * 16 + n)) ['\\', 'x', a, b]

inductive SpellsBytes : List Byte → Chars → Prop
  | nil : SpellsBytes [] []
  | cons {b t bs ts} : SpellsByte b t → SpellsBytes bs ts → SpellsBytes (b :: bs) (t ++ ts)

-- A character as it is or as escapes of its bytes. Some characters cannot stand for themselves.
inductive SpellsChar : Char → Chars → Prop
  | plain {c} : c ∉ ['"', '\\', '\n', '\r'] → SpellsChar c [c]
  | bytes {c t} : SpellsBytes (Utf8.encodeChar c) t → SpellsChar c t

inductive SpellsText : Chars → Chars → Prop
  | nil : SpellsText [] []
  | cons {c t cs ts} : SpellsChar c t → SpellsText cs ts → SpellsText (c :: cs) (t ++ ts)

-- What may stand between the quotes for some bytes: any spelling of a text, or escapes alone.
inductive Denotes : Chars → List Byte → Prop
  | text {s t} : SpellsText s t → Denotes t (Utf8.encode s)
  | bytes {bs t} : SpellsBytes bs t → Denotes t bs

-- A character, or its escape if it needs one.
def escapeChar (c : Char) : Chars :=
  if c = '"' then ['\\', '"']
  else if c = '\\' then ['\\', '\\']
  else if c = '\n' then ['\\', 'n']
  else if c = '\r' then ['\\', 'r']
  else [c]

def escape (cs : Chars) : Chars :=
  cs.flatMap escapeChar

-- Bytes as hexadecimal escapes.
def hexEscapes (bs : List Byte) : Chars :=
  bs.flatMap fun b => ['\\', 'x', Nat.digitChar (b.toNat / 16), Nat.digitChar (b.toNat % 16)]

variable {c : Char} {s t p cs : Chars} {b : Byte} {bs bs' : List Byte}

section Spelling

theorem Body.append (h : Body t bs) (h' : Body cs bs') : Body (t ++ cs) (bs ++ bs') := by
  induction h
  case nil => exact h'
  case cons hp _ ih =>
    rw [List.append_assoc, List.append_assoc]
    exact .cons hp ih

theorem Part.body (h : Part p bs) : Body p bs := by
  have := Body.cons h .nil
  rwa [List.append_nil, List.append_nil] at this

theorem SpellsBytes.body (h : SpellsBytes bs t) : Body t bs := by
  induction h
  case nil => exact .nil
  case cons hb _ ih =>
    cases hb
    case escape he => exact .cons (.escape he) ih
    case hex hm hn => exact .cons (.hex hm hn) ih

theorem SpellsChar.body (h : SpellsChar c t) : Body t (Utf8.encodeChar c) := by
  cases h
  case plain hc =>
    simp only [List.mem_cons, not_or] at hc
    exact (Part.char hc.left hc.right.left).body
  case bytes h => exact h.body

theorem SpellsText.body (h : SpellsText s t) : Body t (Utf8.encode s) := by
  induction h
  case nil => exact .nil
  case cons hc _ ih => exact hc.body.append ih

theorem Denotes.body (h : Denotes t bs) : Body t bs := by
  cases h
  case text h => exact h.body
  case bytes h => exact h.body

-- Whether a text stays in one line.
def InLine (cs : Chars) : Prop :=
  ∀ c ∈ cs, c ≠ '\n' ∧ c ≠ '\r'

theorem InLine.append (h : InLine t) (h' : InLine cs) : InLine (t ++ cs) :=
  List.forall_mem_append.mpr ⟨h, h'⟩

theorem InLine.cons (hc : c ≠ '\n' ∧ c ≠ '\r') (h : InLine cs) : InLine (c :: cs) :=
  List.forall_mem_cons.mpr ⟨hc, h⟩

theorem inLine_nil : InLine [] :=
  List.forall_mem_nil _

theorem SpellsByte.inLine (h : SpellsByte b t) : InLine t := by
  have hdigit {c : Char} {d : Nat} (h : IsDigit 16 c d) : c ≠ '\n' ∧ c ≠ '\r' :=
    ⟨h.ne (by decide) (by decide), h.ne (by decide) (by decide)⟩
  cases h
  case escape e he =>
    have hall : ∀ p ∈ escapes, p.1 ≠ '\n' ∧ p.1 ≠ '\r' := by decide
    exact .cons (by decide) (.cons (hall (e, b) he) inLine_nil)
  case hex hm hn =>
    exact .cons (by decide) (.cons (by decide) (.cons (hdigit hm) (.cons (hdigit hn) inLine_nil)))

theorem SpellsBytes.inLine (h : SpellsBytes bs t) : InLine t := by
  induction h
  case nil => exact inLine_nil
  case cons hb _ ih => exact hb.inLine.append ih

theorem SpellsText.inLine (h : SpellsText s t) : InLine t := by
  induction h
  case nil => exact inLine_nil
  case cons hc _ ih =>
    refine InLine.append ?_ ih
    cases hc
    case plain hc =>
      simp only [List.mem_cons, not_or] at hc
      exact .cons ⟨hc.right.right.left, hc.right.right.right.left⟩ inLine_nil
    case bytes h => exact h.inLine

theorem Denotes.inLine (h : Denotes t bs) : InLine t := by
  cases h
  case text h => exact h.inLine
  case bytes h => exact h.inLine

theorem spellsBytes_hexEscapes (bs : List Byte) : SpellsBytes bs (hexEscapes bs) := by
  induction bs
  case nil => exact .nil
  case cons b bs ih =>
    have hhigh : b.toNat / 16 < 16 := by omega
    have hlow : b.toNat % 16 < 16 := Nat.mod_lt _ (by decide)
    have hb := SpellsByte.hex (isDigit_digitChar hhigh) (isDigit_digitChar hlow)
    rw [Nat.div_add_mod', BitVec.ofNat_toNat, BitVec.setWidth_eq] at hb
    exact .cons hb ih

theorem spellsChar_escapeChar (c : Char) : SpellsChar c (escapeChar c) := by
  have hescape {x e : Char} (b : Byte) (hx : Utf8.encodeChar x = [b]) (he : (e, b) ∈ escapes)
      (hc : c = x) : SpellsChar c ['\\', e] :=
    .bytes (hc ▸ hx ▸ .cons (.escape he) .nil)
  unfold escapeChar
  split_ifs with hq hb hn hr
  case pos => exact hescape 34 (by decide) (by decide) hq
  case pos => exact hescape 92 (by decide) (by decide) hb
  case pos => exact hescape 10 (by decide) (by decide) hn
  case pos => exact hescape 13 (by decide) (by decide) hr
  case neg => exact .plain (by simp [hq, hb, hn, hr])

theorem spellsText_escape (s : Chars) : SpellsText s (escape s) := by
  induction s
  case nil => exact .nil
  case cons c s ih => exact .cons (spellsChar_escapeChar c) ih

end Spelling

end Quoted

section Scanning

open Quoted

variable {c : Char} {p a b body cs : Chars} {bs : List Byte} {ctx : Context}

-- Inside a literal nothing begins a comment, and the literal goes on behind each of its parts.
theorem stripComment_part (h : Part p bs) (cs : Chars) :
    stripComment .inside (p ++ cs) = p ++ stripComment .inside cs := by
  cases h
  case char hq hb => simp [stripComment, Quoting.next, hq, hb]
  case escape => simp [stripComment, Quoting.next]
  case hex hm hn =>
    have ha := hm.ne (x := '\\') (by decide) (by decide)
    have ha' := hm.ne (x := '"') (by decide) (by decide)
    have hb := hn.ne (x := '\\') (by decide) (by decide)
    have hb' := hn.ne (x := '"') (by decide) (by decide)
    simp [stripComment, Quoting.next, ha, ha', hb, hb']

theorem stripComment_body (h : Body body bs) (cs : Chars) :
    stripComment .inside (body ++ cs) = body ++ stripComment .inside cs := by
  induction h
  case nil => rfl
  case cons hp _ ih => rw [List.append_assoc, List.append_assoc, stripComment_part hp, ih]

theorem stripComment_quoted (h : Body body bs) (cs : Chars) :
    stripComment .outside ('"' :: (body ++ '"' :: cs)) =
      '"' :: (body ++ '"' :: stripComment .outside cs) := by
  have hin : stripComment .outside ('"' :: (body ++ '"' :: cs)) =
      '"' :: stripComment .inside (body ++ '"' :: cs) := rfl
  rw [hin, stripComment_body h]
  rfl

-- A colon behind a quote ends no label, since what precedes it is no name.
theorem labels_quoted (h : ∀ c ∈ a, isQuiet c) (cs : Chars) :
    labels (a ++ '"' :: cs) = ([], a ++ '"' :: cs) := by
  have hcolon : ∀ c ∈ a ++ ['"'], decide (c = ':') = false := by
    intro c hc
    rcases List.mem_append.mp hc with hc | hc
    case inl =>
      have := h c hc
      simp [isQuiet] at this
      simp [this]
    case inr => simp [List.mem_singleton.mp hc]
  have hsplit := splitFirst?_append_of_forall hcolon cs
  rw [List.append_assoc, List.singleton_append] at hsplit
  unfold labels
  split
  case h_1 => rfl
  case h_2 before after hs =>
    rw [hs, eq_comm, Option.map_eq_some_iff] at hsplit
    obtain ⟨⟨x, _⟩, _, hx⟩ := hsplit
    obtain rfl : a ++ ['"'] ++ x = before := congrArg Prod.fst hx
    have hquote : '"' ∈ trim (a ++ ['"'] ++ x) := mem_trim (by simp) (by decide)
    have hident : ¬isIdent (trim (a ++ ['"'] ++ x)) := fun hi =>
      absurd (isPlain_of_isIdent hi _ hquote) (by decide)
    simp only [hident]
    rfl

end Scanning

-- The directives that take a string literal, and what each of them appends to its bytes.
def stringDirectives : List (String × List Byte) :=
  [(".ascii", []), (".asciz", [0]), (".string", [0])]

-- A directive with a string literal as it may be laid out in a line.
inductive LaysString (head body : Chars) : Chars → Prop
  | line {lead gap trail comment} : Blanks lead → gap ≠ [] → Blanks gap → Blanks trail →
    Comment comment →
    LaysString head body (lead ++ (head ++ (gap ++ '"' :: (body ++ '"' :: (trail ++ comment)))))

-- Labels as they may stand in front of a statement.
inductive LaysLabels (cs : Chars) : List Chars → Chars → Prop
  | nil : LaysLabels cs [] cs
  | cons {lead name gap names ds} : Blanks lead → isIdent name → Blanks gap →
    LaysLabels cs names ds → LaysLabels cs (name :: names) (lead ++ (name ++ (gap ++ ':' :: ds)))

section Line

open Quoted

variable {mn : String} {tail bs : List Byte} {head body cs ds : Chars} {names : List Chars}
  {ctx : Context} {s : Session}

theorem trim_quoted (body : Chars) : trim ('"' :: (body ++ ['"'])) = '"' :: (body ++ ['"']) :=
  have hquote : Trimmed ['"'] := .of_forall (List.forall_mem_singleton.mpr (by decide))
  (hquote.append hquote nofun nofun body).trim_eq

theorem directive_string (h : (mn, tail) ∈ stringDirectives) (hb : Body body bs) :
    directive ctx mn ('"' :: (body ++ ['"'])) = { stmts := [.bytes (bs ++ tail)] } := by
  have hread : read ('"' :: (body ++ ['"'])) = .ok bs :=
    read_of_literal ((trim_quoted body).symm ▸ .quoted hb)
  simp only [stringDirectives, List.mem_cons, Prod.mk.injEq, List.not_mem_nil, or_false] at h
  rcases h with ⟨rfl, rfl⟩ | ⟨rfl, rfl⟩ | ⟨rfl, rfl⟩
  all_goals
    simp [directive, stringBytes, hread, Reading.ofRead, bind, Except.bind, pure, Except.pure]

theorem constantValue?_quote (cs : Chars) : constantValue? ('"' :: cs) = none := by
  refine constantValue?_eq_none (.inr fun h => ?_)
  have hq : isBlank '"' = false := by decide
  rw [List.takeWhile_cons_of_pos (by simp [hq])] at h
  cases (List.cons.inj h).left

-- The line of a directive with a string literal, read.
theorem line_of_laysString (hd : (mn, tail) ∈ stringDirectives) (hh : lower head = mn.toList)
    (hb : Body body bs) (h : LaysString head body cs) :
    line ctx cs = { stmts := [.bytes (bs ++ tail)] } := by
  have hmn : ∀ d ∈ stringDirectives, d.1.toList.all isPlain ∧ d.1.toList.head? = some '.' := by
    decide
  have ⟨hplain, hdot⟩ := hmn _ hd
  have hplain : ∀ c ∈ head, isPlain c := isPlain_of_lower (hh ▸ List.all_eq_true.mp hplain)
  have hdot : head.head? = some '.' := head?_lower.mp (hh ▸ hdot)
  have hne : head ≠ [] := by
    rintro rfl
    cases hdot
  have hnonblank c (hc : c ∈ head) : isBlank c = false := isBlank_of_isPlain (hplain c hc)
  have hquiet c (hc : c ∈ head) : isQuiet c := isQuiet_of_isPlain (hplain c hc)
  cases h
  case line lead gap trail comment hlead hgap hblank htrail hc =>
  have hstrip : stripComment .outside
      (lead ++ (head ++ (gap ++ '"' :: (body ++ '"' :: (trail ++ comment))))) =
      lead ++ (head ++ (gap ++ '"' :: (body ++ '"' :: trail))) := by
    rw [stripComment_append (Passes.blanks hlead).quiet, stripComment_append hquiet,
      stripComment_append (Passes.blanks hblank).quiet, stripComment_quoted hb,
      stripComment_append (Passes.blanks htrail).quiet, hc.strip_eq, List.append_nil]
  have htrim : trim (lead ++ (head ++ (gap ++ '"' :: (body ++ '"' :: trail)))) =
      head ++ (gap ++ '"' :: (body ++ ['"'])) := by
    have hq : isBlank '"' = false := by decide
    rw [trim_append hlead, trim_word hne hnonblank, trimEnd_append_cons hq, ← List.cons_append,
      trimEnd_append_cons hq, htrail.trimEnd_eq, List.cons_append]
  have hlabels : labels (head ++ (gap ++ '"' :: (body ++ ['"']))) =
      ([], head ++ (gap ++ '"' :: (body ++ ['"']))) := by
    rw [← List.append_assoc]
    exact labels_quoted (List.forall_mem_append.mpr ⟨hquiet, (Passes.blanks hblank).quiet⟩) _
  have hhead : headAndRest (head ++ (gap ++ '"' :: (body ++ ['"']))) =
      (head, '"' :: (body ++ ['"'])) := by
    rw [headAndRest_append hnonblank, trim_append hblank, trim_quoted]
    intro c hc
    rw [List.head?_append_of_ne_nil _ hgap] at hc
    exact hblank c (List.mem_of_mem_head? hc)
  have hempty : (head ++ (gap ++ '"' :: (body ++ ['"']))).isEmpty = false := by simp
  simp only [line, hstrip, htrim, hlabels, hempty, Bool.false_eq_true, if_false, statement, hhead,
    constantValue?_quote, hdot, if_true, hh, String.ofList_toList, directive_string hd hb,
    List.map_nil, List.nil_append]

theorem line_of_laysLabels (h : LaysLabels cs names ds) :
    line ctx ds = { line ctx cs with
      stmts := names.map (fun n => .label (String.ofList n)) ++ (line ctx cs).stmts } := by
  induction h
  case nil => rfl
  case cons hlead hi hgap _ ih => rw [line_label ctx hlead hi hgap, ih, List.map_cons,
    List.cons_append]

theorem LaysLabels.isIdent (h : LaysLabels cs names ds) : ∀ n ∈ names, isIdent n := by
  induction h
  case nil => nofun
  case cons hi _ _ ih => exact List.forall_mem_cons.mpr ⟨hi, ih⟩

theorem label_of_free {name : Chars} (hi : isIdent name)
    (hf : s.symbols.get? (String.ofList name) = none) :
    ∃ symbols, s.label (String.ofList name) = { s with symbols } ∧
      symbols.symbols = s.symbols.symbols.push ⟨String.ofList name, s.cursor, false⟩ := by
  have hat : (String.ofList name).toList.head? ≠ some '@' := by
    rw [String.toList_ofList]
    intro h
    exact absurd (isIdentRest_of_isIdent hi '@' (List.mem_of_mem_head? h)) (by decide)
  have hf : s.symbols.get? (Symbol.name ⟨String.ofList name, s.cursor, false⟩) = none := hf
  have ⟨hsymbols, hdefine⟩ := Session.define_of_free hf
  rw [Session.label, if_neg hat]
  exact ⟨_, hdefine, hsymbols⟩

-- Labels on names that are free are bound to the cursor, each of them, and nothing else happens.
theorem run_labels (hi : ∀ n ∈ names, isIdent n) (hn : names.Nodup)
    (hf : ∀ n ∈ names, s.symbols.get? (String.ofList n) = none) :
    ∃ symbols, s.run (names.map fun n => .label (String.ofList n)) = { s with symbols } ∧
      symbols.symbols = s.symbols.symbols ++
        (names.map fun n => (⟨String.ofList n, s.cursor, false⟩ : Symbol)).toArray := by
  induction names generalizing s
  case nil => exact ⟨s.symbols, rfl, by simp⟩
  case cons name names ih =>
    have ⟨hname, hi⟩ := List.forall_mem_cons.mp hi
    have ⟨hfree, hf⟩ := List.forall_mem_cons.mp hf
    have ⟨hfresh, hn⟩ := List.nodup_cons.mp hn
    obtain ⟨symbols, hlabel, hpush⟩ := label_of_free hname hfree
    have hf' n (h : n ∈ names) : symbols.get? (String.ofList n) = none := by
      rw [SymbolTable.get?_eq_none_iff, hpush]
      intro sym hsym
      rcases Array.mem_push.mp hsym with hsym | rfl
      case inl => exact SymbolTable.get?_eq_none_iff.mp (hf n h) sym hsym
      case inr =>
        intro he
        exact hfresh (String.ofList_injective he ▸ h)
    obtain ⟨symbols', hrun, happend⟩ := ih (s := { s with symbols }) hi hn hf'
    refine ⟨symbols', ?_, ?_⟩
    case refine_1 =>
      rw [List.map_cons, Session.run, List.foldl_cons, Session.exec, hlabel]
      exact hrun
    case refine_2 =>
      rw [happend, hpush]
      simp
      rfl

end Line

-- What a line does that appends bytes and binds labels: that, and nothing else.
structure State.Appends (st : State) (names : List Chars) (bs : List Byte) (st' : State) :
    Prop where
  image   : st'.session.image = st.session.image ++ bs
  symbols : st'.session.symbols.symbols = st.session.symbols.symbols ++
    (names.map fun n => (⟨String.ofList n, st.session.cursor, false⟩ : Symbol)).toArray
  rest    : st' = { st with
    session := { st.session with image := st'.session.image, symbols := st'.session.symbols } }

-- A line with a string literal appends the bytes of the literal, whatever they are, and binds the
-- labels in front of it. Every text has a literal of one line, and so have any bytes.
theorem step_string (st : State) (number : Nat) :
    (∀ text, Quoted.Denotes (Quoted.escape text) (Utf8.encode text)) ∧
    (∀ bs, Quoted.Denotes (Quoted.hexEscapes bs) bs) ∧
    ∀ {mn tail head body bs names cs ds}, (mn, tail) ∈ stringDirectives → lower head = mn.toList →
      Quoted.Denotes body bs → LaysString head body cs → LaysLabels cs names ds → names.Nodup →
      (∀ n ∈ names, st.session.symbols.get? (String.ofList n) = none) →
      Quoted.InLine body ∧ st.Appends names (bs ++ tail) (st.step number ds) := by
  refine ⟨fun text => .text (Quoted.spellsText_escape text),
    fun bs => .bytes (Quoted.spellsBytes_hexEscapes bs), ?_⟩
  intro mn tail head body bs names cs ds hd hh hb hl hn hnodup hfree
  refine ⟨hb.inLine, ?_⟩
  obtain ⟨symbols, hrun, hsymbols⟩ := run_labels hn.isIdent hnodup hfree
  have hline : line ⟨st.constants, st.session.room⟩ ds =
      { stmts := names.map (fun n => .label (String.ofList n)) ++ [.bytes (bs ++ tail)] } := by
    rw [line_of_laysLabels hn, line_of_laysString hd hh hb.body hl]
  have hstep : st.step number ds = { st with
      session := { st.session with image := st.session.image ++ (bs ++ tail), symbols } } := by
    simp only [State.step, hline, Session.run_append, hrun]
    rfl
  rw [hstep]
  exact ⟨rfl, hsymbols, rfl⟩

-- A literal of what means something outside of literals, with a quote in the comment behind it.
theorem step_string_punctuation :
    State.Appends ⟨.start 16, []⟩ ["a".toList, "b".toList]
      (Utf8.encode " equ ;#:,()\"\\\n".toList ++ [0])
      (State.step ⟨.start 16, []⟩ 1 "a: b : .Asciz \" equ ;#:,()\\\"\\\\\\n\" ; \"".toList) := by
  have hblank : Blanks [' '] := by decide
  have hcomment : Comment "; \"".toList := .text (.inl rfl)
  have hstring : LaysString ".Asciz".toList (Quoted.escape " equ ;#:,()\"\\\n".toList)
      ([' '] ++ (".Asciz".toList ++ ([' '] ++ '"' ::
        (Quoted.escape " equ ;#:,()\"\\\n".toList ++ '"' :: ([' '] ++ "; \"".toList))))) :=
    .line hblank nofun hblank hblank hcomment
  have hlabels : LaysLabels " .Asciz \" equ ;#:,()\\\"\\\\\\n\" ; \"".toList
      ["a".toList, "b".toList] ([] ++ ("a".toList ++ ([] ++ ':' ::
        ([' '] ++ ("b".toList ++ ([' '] ++ ':' ::
          " .Asciz \" equ ;#:,()\\\"\\\\\\n\" ; \"".toList)))))) :=
    .cons blanks_nil (by decide) blanks_nil (.cons hblank (by decide) hblank .nil)
  have ⟨hescape, _, hstep⟩ := step_string ⟨.start 16, []⟩ 1
  have hd : (".asciz", [0]) ∈ stringDirectives := by decide
  have hfree : ∀ n ∈ ["a".toList, "b".toList],
      (Session.start 16).symbols.get? (String.ofList n) = none :=
    fun n _ => SymbolTable.get?_empty _
  exact (hstep hd (by decide) (hescape _) hstring hlabels (by decide) hfree).right

end Source

end RV32IM
