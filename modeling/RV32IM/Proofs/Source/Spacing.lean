import RV32IM.Proofs.Source.Name

-- Lines however they are laid out. White space around the parts of a statement, and a comment after
-- it, mean nothing: a line gives back the first word and the operands that were put into it.

namespace RV32IM

namespace Text

variable {cs a b : List Char} {c : Char}

-- Whether a text is white space and nothing else.
def Blanks (cs : List Char) : Prop :=
  ∀ c ∈ cs, isBlank c

instance : DecidablePred Blanks :=
  fun cs => decidable_of_iff (cs.all isBlank) List.all_eq_true

theorem blanks_nil : Blanks [] :=
  List.forall_mem_nil _

theorem Blanks.append (ha : Blanks a) (hb : Blanks b) : Blanks (a ++ b) :=
  List.forall_mem_append.mpr ⟨ha, hb⟩

theorem trimStart_append (ha : Blanks a) (cs : List Char) : trimStart (a ++ cs) = trimStart cs :=
  List.dropWhile_append_of_pos ha

theorem trimEnd_append_blanks (cs : List Char) (hb : Blanks b) :
    trimEnd (cs ++ b) = trimEnd cs := by
  have hr : ∀ c ∈ b.reverse, isBlank c := fun c hc => hb c (List.mem_reverse.mp hc)
  rw [trimEnd, List.reverse_append, List.dropWhile_append_of_pos hr, trimEnd]

theorem trimEnd_append_cons (hc : isBlank c = false) (a b : List Char) :
    trimEnd (a ++ c :: b) = a ++ c :: trimEnd b := by
  have hr : (a ++ c :: b).reverse = b.reverse ++ (c :: a.reverse) := by simp
  rw [trimEnd, hr, List.dropWhile_append, trimEnd]
  split
  case isTrue he =>
    rw [List.isEmpty_iff] at he
    simp [he, hc]
  case isFalse => simp

-- The text within white space.
theorem exists_trim (cs : List Char) : ∃ a b, Blanks a ∧ Blanks b ∧ cs = a ++ (trim cs ++ b) := by
  have hstart : cs = cs.takeWhile isBlank ++ trimStart cs := (List.takeWhile_append_dropWhile).symm
  have hend : trimStart cs =
      trim cs ++ ((trimStart cs).reverse.takeWhile isBlank).reverse := by
    rw [trim, trimEnd, ← List.reverse_append, List.takeWhile_append_dropWhile, List.reverse_reverse]
  refine ⟨_, _, fun c hc => List.mem_takeWhile_imp hc, fun c hc => ?_, hend ▸ hstart⟩
  exact List.mem_takeWhile_imp (List.mem_reverse.mp hc)

theorem exists_trimEnd (cs : List Char) : ∃ b, Blanks b ∧ cs = trimEnd cs ++ b := by
  refine ⟨(cs.reverse.takeWhile isBlank).reverse, fun c hc => ?_, ?_⟩
  case refine_1 => exact List.mem_takeWhile_imp (List.mem_reverse.mp hc)
  case refine_2 =>
    rw [trimEnd, ← List.reverse_append, List.takeWhile_append_dropWhile, List.reverse_reverse]

theorem trim_append (ha : Blanks a) (cs : List Char) : trim (a ++ cs) = trim cs := by
  rw [trim, trimStart_append ha, trim]

theorem trim_append_blanks (cs : List Char) (hb : Blanks b) : trim (cs ++ b) = trim cs := by
  rw [trim, trim, trimStart, trimStart, List.dropWhile_append]
  split
  case isTrue he =>
    rw [List.isEmpty_iff.mp he, List.dropWhile_eq_nil_iff.mpr hb]
  case isFalse => exact trimEnd_append_blanks _ hb

theorem Blanks.trim_eq (h : Blanks cs) : trim cs = [] := by
  rw [← List.append_nil cs, trim_append h]
  rfl

theorem Blanks.trimEnd_eq (h : Blanks cs) : trimEnd cs = [] := by
  rw [← List.nil_append cs, trimEnd_append_blanks _ h]
  rfl

@[simp]
theorem trim_trimEnd (cs : List Char) : trim (trimEnd cs) = trim cs := by
  have ⟨b, hb, he⟩ := exists_trimEnd cs
  rw [← trim_append_blanks (trimEnd cs) hb, ← he]

@[simp]
theorem trim_trim (cs : List Char) : trim (trim cs) = trim cs := by
  have ⟨a, b, ha, hb, he⟩ := exists_trim cs
  rw [← trim_append_blanks (trim cs) hb, ← trim_append ha, ← he]

-- White space after a word is dropped, the word is not.
theorem trim_word {head : List Char} (hn : head ≠ []) (hh : ∀ c ∈ head, isBlank c = false)
    (cs : List Char) : trim (head ++ cs) = head ++ trimEnd cs := by
  have hstart : trimStart (head ++ cs) = head ++ cs :=
    dropWhile_eq_self fun c hc => by
      rw [List.head?_append_of_ne_nil _ hn] at hc
      exact hh c (List.mem_of_mem_head? hc)
  have hlast := hh _ (List.getLast_mem hn)
  rw [trim, hstart, ← List.dropLast_concat_getLast hn, List.append_assoc, List.singleton_append,
    trimEnd_append_cons hlast, List.append_assoc, List.singleton_append]

end Text

namespace Source

open Text

-- Whether a character neither ends a label nor begins a comment or a string.
def isQuiet (c : Char) : Bool :=
  !(c ∈ [':', ';', '#', '"'])

-- Whether a character does not matter to where a statement is split into operands.
def isSoft (c : Char) : Bool :=
  isPlain c || isBlank c

variable {c : Char} {cs a b o : Chars}

theorem isQuiet_of_isPlain (h : isPlain c) : isQuiet c := by
  have hi := isInert_of_isPlain h
  simp [isInert] at hi
  simp [isQuiet, hi]

theorem isQuiet_of_isBlank (h : isBlank c) : isQuiet c := by
  have hne {d : Char} (hd : isBlank d = false) : c ≠ d := by
    rintro rfl
    rw [hd] at h
    contradiction
  have h₁ : c ≠ ':' := hne rfl
  have h₂ : c ≠ ';' := hne rfl
  have h₃ : c ≠ '#' := hne rfl
  have h₄ : c ≠ '"' := hne rfl
  simp [isQuiet, h₁, h₂, h₃, h₄]

theorem isQuiet_of_isSoft (h : isSoft c) : isQuiet c := by
  rcases Bool.or_eq_true _ _ ▸ h with h | h
  case inl => exact isQuiet_of_isPlain h
  case inr => exact isQuiet_of_isBlank h

theorem stripComment_append (h : ∀ c ∈ a, isQuiet c) (cs : Chars) :
    stripComment .outside (a ++ cs) = a ++ stripComment .outside cs := by
  induction a
  case nil => rfl
  case cons c a hi =>
    have ⟨hc, ha⟩ := List.forall_mem_cons.mp h
    simp [isQuiet] at hc
    simp [stripComment, Quoting.next, hc, hi ha]

theorem labels_of_isQuiet (h : ∀ c ∈ cs, isQuiet c) : labels cs = ([], cs) := by
  have hs : splitFirst? (· = ':') cs = none := by
    apply splitFirst?_eq_none
    intro c hc
    have := h c hc
    simp [isQuiet] at this
    simp [this]
  unfold labels
  split
  case h_1 => rfl
  case h_2 h => rw [hs] at h; cases h

theorem pieces_soft (h : ∀ c ∈ a, isSoft c) (d : Int) (cs : Chars) :
    pieces .outside d (a ++ cs) = a.foldr consFirst (pieces .outside d cs) := by
  refine pieces_append (fun c hc => ?_) d cs
  have hne {x : Char} (hx : isSoft x = false) : c ≠ x := by
    rintro rfl
    rw [h c hc] at hx
    contradiction
  exact ⟨hne rfl, hne rfl, hne rfl, hne rfl⟩

-- Whether a text stays in one piece wherever it stands in a list of operands.
structure Passes (cs : Chars) : Prop where
  quiet : ∀ c ∈ cs, isQuiet c
  piece : ∀ rest, pieces .outside 0 (cs ++ rest) = cs.foldr consFirst (pieces .outside 0 rest)

theorem Passes.of_soft (h : ∀ c ∈ a, isSoft c) : Passes a where
  quiet c hc := isQuiet_of_isSoft (h c hc)
  piece := pieces_soft h 0

theorem Passes.append (ha : Passes a) (hb : Passes b) : Passes (a ++ b) where
  quiet := List.forall_mem_append.mpr ⟨ha.quiet, hb.quiet⟩
  piece rest := by rw [List.append_assoc, ha.piece, hb.piece, List.foldr_append]

theorem Passes.parens (h : ∀ c ∈ a, isSoft c) : Passes ('(' :: (a ++ [')'])) where
  quiet := by
    have hp : isQuiet '(' ∧ isQuiet ')' := by decide
    have hq c hc := isQuiet_of_isSoft (h c hc)
    grind
  piece rest := by simp [pieces_soft h, pieces, Quoting.next]

theorem Passes.blanks (h : Blanks a) : Passes a :=
  .of_soft fun c hc => by simp [isSoft, h c hc]

-- An operand: a text in one piece without white space at its ends.
structure IsPiece (cs : Chars) : Prop extends Passes cs where
  nonempty : cs ≠ []
  trimmed  : Trimmed cs

theorem IsPiece.of_plain (hn : a ≠ []) (h : ∀ c ∈ a, isPlain c) : IsPiece a where
  toPasses := .of_soft fun c hc => by simp [isSoft, h c hc]
  nonempty := hn
  trimmed  := .of_forall fun c hc => isBlank_of_isPlain (h c hc)

-- An operand with white space around it.
inductive Padded (o : Chars) : Chars → Prop
  | pad {a b : Chars} : Blanks a → Blanks b → Padded o (a ++ (o ++ b))

theorem Padded.trim_eq (h : Padded o cs) (ho : Trimmed o) : trim cs = o := by
  cases h
  case pad ha hb => rw [trim_append ha, trim_append_blanks _ hb, ho.trim_eq]

theorem Padded.passes (h : Padded o cs) (ho : Passes o) : Passes cs := by
  cases h
  case pad ha hb => exact (Passes.blanks ha).append (ho.append (.blanks hb))

section Operands

variable {ops ps : List Chars} {trail : Chars}

-- Operands are read as they were put between the commas.
theorem map_trim_pieces_padded (h : List.Forall₂ Padded ops ps) (hn : ops ≠ [])
    (ho : ∀ o ∈ ops, IsPiece o) (ht : Blanks trail) :
    (pieces .outside 0 ([','].intercalate ps ++ trail)).map trim = ops := by
  have hmap {o p : Chars} (hp : Padded o p) (ho : IsPiece o) (qs) :
      (p.foldr consFirst ([] :: qs)).map trim = o :: qs.map trim := by
    rw [foldr_consFirst, List.append_nil, List.map_cons, hp.trim_eq ho.trimmed]
  induction h
  case nil => contradiction
  case cons o p ops ps hp hps ih =>
    have ⟨ho', hos⟩ := List.forall_mem_cons.mp ho
    cases hps
    case nil =>
      have hpass := (hp.passes ho'.toPasses).append (.blanks ht)
      have hlast : Padded o (p ++ trail) := by
        cases hp
        case pad a b ha hb =>
          rw [List.append_assoc, List.append_assoc]
          exact .pad ha (hb.append ht)
      rw [List.intercalate_singleton, ← List.append_nil (p ++ trail), hpass.piece, pieces,
        hmap hlast ho']
      rfl
    case cons o' p' ops ps hps hp' =>
      have hcomma cs : pieces .outside 0 (',' :: cs) = [] :: pieces .outside 0 cs := rfl
      rw [List.intercalate_cons_cons, List.append_assoc, List.append_assoc,
        (hp.passes ho'.toPasses).piece, List.singleton_append, hcomma, hmap hp ho']
      exact congrArg _ (ih (List.cons_ne_nil _ _) hos)

theorem map_trim_pieces_append (ha : Blanks a) (cs : Chars) :
    (pieces .outside 0 (a ++ cs)).map trim = (pieces .outside 0 cs).map trim := by
  rw [(Passes.blanks ha).piece]
  induction a
  case nil => rfl
  case cons c a hi =>
    have ⟨hc, ha⟩ := List.forall_mem_cons.mp ha
    have hn : a.foldr consFirst (pieces .outside 0 cs) ≠ [] := by
      rw [← (Passes.blanks ha).piece]
      exact pieces_ne_nil _ _ _
    rw [List.foldr_cons, map_trim_consFirst hc hn, hi ha]

theorem pieces_blanks (hb : Blanks b) (q : Quoting) (d : Int) : pieces q d b = [b] := by
  induction b generalizing q d
  case nil => rfl
  case cons c b ih =>
    have ⟨hc, hb⟩ := List.forall_mem_cons.mp hb
    have hcomma : c ≠ ',' := by
      rintro rfl
      contradiction
    simp only [pieces, if_neg fun h => hcomma (And.right (And.right h)), ih hb]
    rfl

-- White space at the end goes to the last piece.
theorem exists_pieces_append (hb : Blanks b) (q : Quoting) (d : Int) (cs : Chars) :
    ∃ qs p, pieces q d cs = qs ++ [p] ∧ pieces q d (cs ++ b) = qs ++ [p ++ b] := by
  induction cs generalizing q d
  case nil => exact ⟨[], [], rfl, pieces_blanks hb q d⟩
  case cons c cs ih =>
    simp only [List.cons_append, pieces]
    split
    case isTrue =>
      obtain ⟨qs, p, h, h'⟩ := ih q d
      exact ⟨[] :: qs, p, by rw [h, List.cons_append], by rw [h', List.cons_append]⟩
    case isFalse =>
      obtain ⟨qs, p, h, h'⟩ := ih (q.next c) (if q = .outside ∧ c = '(' then d + 1
        else if q = .outside ∧ c = ')' then d - 1 else d)
      rw [h, h']
      cases qs
      case nil => exact ⟨[], c :: p, rfl, rfl⟩
      case cons p' qs => exact ⟨(c :: p') :: qs, p, rfl, rfl⟩

theorem map_trim_pieces_append_blanks (hb : Blanks b) (cs : Chars) :
    (pieces .outside 0 (cs ++ b)).map trim = (pieces .outside 0 cs).map trim := by
  have ⟨qs, p, h, h'⟩ := exists_pieces_append hb .outside 0 cs
  simp only [h, h', List.map_append, List.map_cons, trim_append_blanks _ hb]

theorem operands_trim (h : trim cs ≠ []) :
    operands (trim cs) = (pieces .outside 0 cs).map trim := by
  have ⟨a, b, ha, hb, he⟩ := exists_trim cs
  rw [operands, trim_trim]
  split
  case h_1 hn => exact absurd hn h
  case h_2 =>
    conv_rhs => rw [he]
    rw [map_trim_pieces_append ha, map_trim_pieces_append_blanks hb]

theorem isQuiet_intercalate (h : List.Forall₂ Padded ops ps) (ho : ∀ o ∈ ops, IsPiece o) :
    ∀ c ∈ [','].intercalate ps, isQuiet c := by
  induction h
  case nil => nofun
  case cons o p ops ps hp hps ih =>
    have ⟨ho', hos⟩ := List.forall_mem_cons.mp ho
    have hquiet := (hp.passes ho'.toPasses).quiet
    cases ps
    case nil => simpa using hquiet
    case cons p' ps =>
      have hcomma : isQuiet ',' := rfl
      rw [List.intercalate_cons_cons]
      have := ih hos
      grind

end Operands

-- What may follow a statement to the end of its line.
inductive Comment : Chars → Prop
  | none : Comment []
  | text {c : Char} {cs : Chars} : c = ';' ∨ c = '#' → Comment (c :: cs)

theorem Comment.strip_eq (h : Comment cs) : stripComment .outside cs = [] := by
  cases h
  case none => rfl
  case text h => simp [stripComment, h]

-- A first word and operands that can be told apart in every layout.
structure Separable (head : Chars) (ops : List Chars) : Prop where
  nonempty : head ≠ []
  plain    : ∀ c ∈ head, isPlain c
  pieces   : ∀ o ∈ ops, IsPiece o
  -- White space may follow the first operand, which must not be a keyword then.
  first    : ∀ o os, ops = o :: os →
    (∀ c ∈ o, isBlank c = false) ∧ (os ≠ [] → lower o ≠ "equ".toList)

-- A statement as it may be laid out in a line.
inductive Lays (head : Chars) (ops : List Chars) : Chars → Prop
  | line {lead trail comment : Chars} {ps : List Chars} :
    Blanks lead → List.Forall₂ Padded ops ps → (∀ c ∈ ([','].intercalate ps).head?, isBlank c) →
    Blanks trail → Comment comment →
    Lays head ops (lead ++ (head ++ ([','].intercalate ps ++ (trail ++ comment))))

section Lays

variable {head trail : Chars} {ops ps : List Chars}

theorem takeWhile_of_splitFirst? {p : Char → Bool} (h : splitFirst? p cs = some (a, b)) :
    a = cs.takeWhile (!p ·) := by
  induction cs generalizing a
  case nil => cases h
  case cons c cs ih =>
    simp only [splitFirst?] at h
    split at h
    case isTrue hc =>
      cases h
      simp [hc]
    case isFalse hc =>
      simp only [Option.map_eq_some_iff, Prod.exists, Prod.mk.injEq] at h
      obtain ⟨a', b', h, rfl, rfl⟩ := h
      simp [hc, ih h]

theorem constantValue?_eq_none (h : splitFirst? isBlank cs = none ∨
    lower (cs.takeWhile (!isBlank ·)) ≠ "equ".toList) : constantValue? cs = none := by
  unfold constantValue?
  split
  case h_2 => rfl
  case h_1 keyword value hs =>
    rw [takeWhile_of_splitFirst? hs]
    exact if_neg (h.resolve_left (by simp [hs]))

theorem constantValue?_trim (hs : Separable head ops) (hps : List.Forall₂ Padded ops ps)
    (ht : Blanks trail) : constantValue? (trim ([','].intercalate ps ++ trail)) = none := by
  cases hps
  case nil =>
    rw [List.intercalate_nil, List.nil_append, ht.trim_eq]
    rfl
  case cons o p os ps hp hps =>
    have ⟨hblank, hkey⟩ := hs.first o os rfl
    have hn := (hs.pieces o List.mem_cons_self).nonempty
    apply constantValue?_eq_none
    cases hp
    case pad a b ha hb =>
    cases hps
    case nil =>
      rw [List.intercalate_singleton, List.append_assoc, List.append_assoc, trim_append ha,
        trim_word hn hblank, (hb.append ht).trimEnd_eq, List.append_nil]
      exact .inl (splitFirst?_eq_none hblank)
    case cons o' p' os ps _ _ =>
      right
      have hcomma : isBlank ',' = false := rfl
      rw [List.intercalate_cons_cons, List.append_assoc, List.append_assoc, List.append_assoc,
        trim_append ha, List.append_assoc, trim_word hn hblank, List.singleton_append,
        trimEnd_append_cons hcomma, List.takeWhile_append_of_pos (by simpa using hblank)]
      cases b
      case nil =>
        intro he
        have hmem : ',' ∈ "equ".toList := by
          rw [← he]
          simp [lower, hcomma]
        exact absurd hmem (by decide)
      case cons c b =>
        have hc := hb c List.mem_cons_self
        simpa [hc] using hkey (List.cons_ne_nil _ _)

theorem operands_trim_intercalate (hps : List.Forall₂ Padded ops ps) (ho : ∀ o ∈ ops, IsPiece o)
    (ht : Blanks trail) : operands (trim ([','].intercalate ps ++ trail)) = ops := by
  cases hps
  case nil =>
    rw [List.intercalate_nil, List.nil_append, ht.trim_eq]
    rfl
  case cons o p ops ps hp hps =>
    have hmap := map_trim_pieces_padded (.cons hp hps) (List.cons_ne_nil o ops) ho ht
    have hne : trim ([','].intercalate (p :: ps) ++ trail) ≠ [] := by
      intro he
      have ⟨a, b, ha, hb, hbody⟩ := exists_trim ([','].intercalate (p :: ps) ++ trail)
      rw [he, List.nil_append] at hbody
      rw [hbody, pieces_blanks (ha.append hb), List.map_singleton, (ha.append hb).trim_eq] at hmap
      exact (ho o List.mem_cons_self).nonempty (List.cons.inj hmap).left.symm
    rw [operands_trim hne, hmap]

-- A statement is read as if it stood alone.
theorem line_of_lays (ctx : Context) (h : Lays head ops cs) (hs : Separable head ops) :
    ∃ rest, operands rest = ops ∧ line ctx cs =
      if head.head? = some '.' then directive ctx (String.ofList (lower head)) rest
      else .ofRead (mnemonic ctx (String.ofList (lower head)) ops) := by
  cases h
  case line lead trail comment ps hlead hps hgap ht hc =>
  have hnonblank c (hc : c ∈ head) : isBlank c = false := isBlank_of_isPlain (hs.plain c hc)
  have hconst := constantValue?_trim hs hps ht
  have hrest := operands_trim_intercalate hps hs.pieces ht
  have hgap : ∀ c ∈ ([','].intercalate ps ++ trail).head?, isBlank c := by
    intro c hc
    rw [List.head?_append, Option.mem_def, Option.or_eq_some_iff] at hc
    rcases hc with hc | ⟨_, hc⟩
    case inl => exact hgap c hc
    case inr => exact ht c (List.mem_of_mem_head? hc)
  have hquiet : ∀ c ∈ [','].intercalate ps ++ trail, isQuiet c :=
    List.forall_mem_append.mpr ⟨isQuiet_intercalate hps hs.pieces, (Passes.blanks ht).quiet⟩
  rw [← List.append_assoc _ trail]
  generalize [','].intercalate ps ++ trail = body at *
  refine ⟨trim body, hrest, ?_⟩
  have ⟨b, _, hbody⟩ := exists_trimEnd body
  have hstrip : stripComment .outside (lead ++ (head ++ (body ++ comment))) =
      lead ++ (head ++ body) := by
    have hh c hc := isQuiet_of_isPlain (hs.plain c hc)
    rw [stripComment_append (Passes.blanks hlead).quiet, stripComment_append hh,
      stripComment_append hquiet, hc.strip_eq, List.append_nil]
  have hlabels : labels (head ++ trimEnd body) = ([], head ++ trimEnd body) := by
    refine labels_of_isQuiet (List.forall_mem_append.mpr ⟨?_, fun c hc => hquiet c ?_⟩)
    case refine_1 => exact fun c hc => isQuiet_of_isPlain (hs.plain c hc)
    case refine_2 => exact hbody ▸ List.mem_append_left b hc
  have hhead : headAndRest (head ++ trimEnd body) = (head, trim body) := by
    rw [headAndRest_append hnonblank, trim_trimEnd]
    intro c hc
    refine hgap c ?_
    rw [hbody, List.head?_append, Option.mem_def, Option.or_eq_some_iff]
    exact .inl hc
  have hne : (head ++ trimEnd body).isEmpty = false := by simp [hs.nonempty]
  simp only [line, hstrip, trim_append hlead, trim_word hs.nonempty hnonblank, hlabels, hne,
    Bool.false_eq_true, if_false, statement, hhead, hconst, hrest, List.map_nil, List.nil_append]

end Lays

-- A label as it may be laid out in a line.
inductive LaysLabel (name : Chars) : Chars → Prop
  | line {lead gap trail comment : Chars} :
    Blanks lead → Blanks gap → Blanks trail → Comment comment →
    LaysLabel name (lead ++ (name ++ (gap ++ ':' :: (trail ++ comment))))

section Labels

variable {name lead gap trail comment : Chars}

theorem labels_label (hi : isIdent name) (hgap : Blanks gap) (cs : Chars) :
    labels (name ++ (gap ++ ':' :: cs)) =
      (name :: (labels (trim cs)).1, (labels (trim cs)).2) := by
  have hcolon : ∀ c ∈ name ++ gap, decide (c = ':') = false := by
    intro c hc
    have hq : isQuiet c := (List.mem_append.mp hc).elim
      (fun hc => isQuiet_of_isPlain (isPlain_of_isIdent hi c hc)) ((Passes.blanks hgap).quiet c)
    simp [isQuiet] at hq
    simp [hq]
  have hsplit : splitFirst? (· = ':') (name ++ (gap ++ ':' :: cs)) = some (name ++ gap, cs) := by
    rw [← List.append_assoc]
    exact splitFirst?_append hcolon rfl cs
  conv_lhs => unfold labels
  split
  case h_1 hn => cases hsplit.symm.trans hn
  case h_2 before after hs =>
    cases hsplit.symm.trans hs
    simp only [trim_append_blanks name hgap, trim_of_isIdent hi, hi, if_true]

-- A line with a label in front is the label and then what the line is without it.
theorem line_label (ctx : Context) (hlead : Blanks lead) (hi : isIdent name) (hgap : Blanks gap)
    (cs : Chars) :
    line ctx (lead ++ (name ++ (gap ++ ':' :: cs))) =
      { line ctx cs with stmts := .label (String.ofList name) :: (line ctx cs).stmts } := by
  have hname := isOperand_of_isIdent hi
  have hquiet c (hc : c ∈ name) : isQuiet c := isQuiet_of_isPlain (isPlain_of_isIdent hi c hc)
  have hstrip : stripComment .outside (lead ++ (name ++ (gap ++ ':' :: cs))) =
      lead ++ (name ++ (gap ++ ':' :: stripComment .outside cs)) := by
    rw [stripComment_append (Passes.blanks hlead).quiet, stripComment_append hquiet,
      stripComment_append (Passes.blanks hgap).quiet]
    rfl
  have htrim : trim (lead ++ (name ++ (gap ++ ':' :: stripComment .outside cs))) =
      name ++ (gap ++ ':' :: trimEnd (stripComment .outside cs)) := by
    rw [trim_append hlead, trim_word hname.nonempty hname.nonblank, trimEnd_append_cons rfl]
  simp only [line, hstrip, htrim, labels_label hi hgap, trim_trimEnd, List.map_cons,
    List.cons_append]

theorem line_comment (ctx : Context) (ht : Blanks trail) (hc : Comment comment) :
    line ctx (trail ++ comment) = {} := by
  have hstrip : stripComment .outside (trail ++ comment) = trail := by
    rw [stripComment_append (Passes.blanks ht).quiet, hc.strip_eq, List.append_nil]
  have hlabels : labels [] = ([], []) := labels_of_isQuiet nofun
  simp [line, hstrip, ht.trim_eq, hlabels]

theorem line_of_laysLabel (ctx : Context) (h : LaysLabel name cs) (hi : isIdent name) :
    line ctx cs = { stmts := [.label (String.ofList name)] } := by
  cases h
  case line lead gap trail comment hlead hgap ht hc =>
  rw [line_label ctx hlead hi hgap, line_comment ctx ht hc]

end Labels

theorem stripComment_blanks (hb : Blanks b) (q : Quoting) : stripComment q b = b := by
  induction b generalizing q
  case nil => rfl
  case cons c b ih =>
    have ⟨hc, hb⟩ := List.forall_mem_cons.mp hb
    have hq := isQuiet_of_isBlank hc
    simp [isQuiet] at hq
    simp [stripComment, hq, ih hb]

-- White space at the end of a line goes with its comment if there is one.
theorem exists_stripComment_append (hb : Blanks b) (q : Quoting) (cs : Chars) :
    ∃ b', Blanks b' ∧ stripComment q (cs ++ b) = stripComment q cs ++ b' := by
  induction cs generalizing q
  case nil => exact ⟨b, hb, stripComment_blanks hb q⟩
  case cons c cs ih =>
    obtain ⟨b', hb', h⟩ := ih (q.next c)
    simp only [List.cons_append, stripComment]
    split
    case isTrue => exact ⟨[], blanks_nil, rfl⟩
    case isFalse => exact ⟨b', hb', by rw [h, List.cons_append]⟩

theorem line_append_blanks (ctx : Context) (hb : Blanks b) (cs : Chars) :
    line ctx (cs ++ b) = line ctx cs := by
  have ⟨b', hb', h⟩ := exists_stripComment_append hb .outside cs
  rw [line, h, trim_append_blanks _ hb', line]

end Source

end RV32IM
