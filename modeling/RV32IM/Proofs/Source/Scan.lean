import Mathlib
import RV32IM.Source.Scan

-- Texts that the scanner takes apart as they were put together. A text without the characters that
-- mean something to it passes as one piece, so a statement gives back its first word and operands
-- that were joined by commas.

namespace RV32IM

namespace Text

variable {cs : List Char} {c : Char}

-- Whether a text has no white space at its ends.
structure Trimmed (cs : List Char) : Prop where
  first : ∀ c ∈ cs.head?, isBlank c = false
  last  : ∀ c ∈ cs.getLast?, isBlank c = false

theorem dropWhile_eq_self {p : Char → Bool} (h : ∀ c ∈ cs.head?, p c = false) :
    cs.dropWhile p = cs := by
  cases cs
  case nil => rfl
  case cons c cs => simp [h c rfl]

theorem Trimmed.trim_eq (h : Trimmed cs) : trim cs = cs := by
  have hl : ∀ c ∈ cs.reverse.head?, isBlank c = false := by
    rw [List.head?_reverse]
    exact h.last
  rw [trim, trimStart, dropWhile_eq_self h.first, trimEnd, dropWhile_eq_self hl,
    List.reverse_reverse]

theorem trim_cons_of_isBlank (h : isBlank c) (cs : List Char) : trim (c :: cs) = trim cs := by
  simp only [trim, trimStart, List.dropWhile_cons, h, if_true]

theorem Trimmed.of_forall (h : ∀ c ∈ cs, isBlank c = false) : Trimmed cs where
  first c hc := h c (List.mem_of_mem_head? hc)
  last c hc := h c (List.mem_of_mem_getLast? hc)

theorem Trimmed.append {ds : List Char} (hc : Trimmed cs) (hd : Trimmed ds) (hn : cs ≠ [])
    (hn' : ds ≠ []) (es : List Char) : Trimmed (cs ++ es ++ ds) where
  first c h := hc.first c (by simpa [hn] using h)
  last c h := hd.last c (by simpa [hn'] using h)

theorem splitFirst?_eq_none {p : Char → Bool} (h : ∀ c ∈ cs, p c = false) :
    splitFirst? p cs = none := by
  induction cs
  case nil => rfl
  case cons c cs hi =>
    have ⟨hc, hcs⟩ := List.forall_mem_cons.mp h
    simp [splitFirst?, hc, hi hcs]

theorem splitFirst?_append {p : Char → Bool} (h : ∀ c ∈ cs, p c = false) (hc : p c)
    (ds : List Char) : splitFirst? p (cs ++ c :: ds) = some (cs, ds) := by
  induction cs
  case nil => simp [splitFirst?, hc]
  case cons d cs hi =>
    obtain ⟨hd, hcs⟩ := List.forall_mem_cons.mp h
    simp [splitFirst?, hd, hi hcs]

end Text

namespace Source

open Text

-- Whether a character is part of a line but neither ends a label nor begins a comment or a string.
def isInert (c : Char) : Bool :=
  !(c ∈ [':', ';', '#', '"', '\n', '\r'])

-- Whether a character is no punctuation at all.
def isPlain (c : Char) : Bool :=
  isInert c && !isBlank c && !(c ∈ [',', '(', ')'])

variable {c : Char} {cs a b : Chars}

theorem isInert_of_isPlain (h : isPlain c) : isInert c := by
  simp only [isPlain, Bool.and_eq_true] at h
  exact h.left.left

theorem isBlank_of_isPlain (h : isPlain c) : isBlank c = false := by
  simp only [isPlain, Bool.and_eq_true, Bool.not_eq_true'] at h
  exact h.left.right

theorem stripComment_eq_self (h : ∀ c ∈ cs, isInert c) : stripComment .outside cs = cs := by
  induction cs
  case nil => rfl
  case cons c cs hi =>
    have ⟨hc, hcs⟩ := List.forall_mem_cons.mp h
    simp [isInert] at hc
    simp [stripComment, Quoting.next, hc, hi hcs]

theorem labels_eq_nil (h : ∀ c ∈ cs, isInert c) : labels cs = ([], cs) := by
  have hs : splitFirst? (· = ':') cs = none := by
    apply splitFirst?_eq_none
    intro c hc
    have := h c hc
    simp [isInert] at this
    simp [this]
  unfold labels
  split
  case h_1 => rfl
  case h_2 h => rw [hs] at h; cases h

theorem headAndRest_append {rest : Chars} (ha : ∀ c ∈ a, isBlank c = false)
    (hr : ∀ c ∈ rest.head?, isBlank c) : headAndRest (a ++ rest) = (a, trim rest) := by
  have h : ∀ c ∈ a, (!isBlank c) = true := fun c hc => by simp [ha c hc]
  rw [headAndRest, List.takeWhile_append_of_pos h, List.dropWhile_append_of_pos h]
  cases rest
  case nil => simp
  case cons c rest => simp [hr c rfl]

theorem memoryOperand?_append (hb : '(' ∉ b) :
    memoryOperand? (a ++ '(' :: b ++ [')']) = some (trim a, trim b) := by
  have hs : splitFirst? (· = '(') (a ++ '(' :: b ++ [')']).reverse =
      some (')' :: b.reverse, a.reverse) := by
    have hr : (a ++ '(' :: b ++ [')']).reverse = (')' :: b.reverse) ++ '(' :: a.reverse := by simp
    rw [hr]
    apply splitFirst?_append _ (by decide)
    intro c hc
    simp at hc ⊢
    grind
  rw [memoryOperand?, hs]
  simp [dropLast?]

theorem foldr_consFirst (a p : Chars) (ps : List Chars) :
    a.foldr consFirst (p :: ps) = (a ++ p) :: ps := by
  induction a
  case nil => rfl
  case cons c a hi => rw [List.foldr_cons, hi]; rfl

theorem pieces_ne_nil (q : Quoting) (d : Int) (cs : Chars) : pieces q d cs ≠ [] := by
  cases cs
  case nil => nofun
  case cons c cs =>
    rw [pieces]
    split
    case isTrue => nofun
    case isFalse =>
      simp only [consFirst]
      split <;> nofun

theorem pieces_append (h : ∀ c ∈ a, c ≠ ',' ∧ c ≠ '(' ∧ c ≠ ')' ∧ c ≠ '"') (d : Int) (cs : Chars) :
    pieces .outside d (a ++ cs) = a.foldr consFirst (pieces .outside d cs) := by
  induction a
  case nil => rfl
  case cons c a hi =>
    have ⟨hc, ha⟩ := List.forall_mem_cons.mp h
    simp [pieces, Quoting.next, hc, hi ha]

theorem pieces_plain (h : ∀ c ∈ a, isPlain c) (d : Int) (cs : Chars) :
    pieces .outside d (a ++ cs) = a.foldr consFirst (pieces .outside d cs) := by
  refine pieces_append (fun c hc => ?_) d cs
  have := h c hc
  simp_all [isPlain, isInert]

-- An operand: a text that is one piece wherever it stands in a list of operands.
structure IsOperand (cs : Chars) : Prop where
  nonempty : cs ≠ []
  inert    : ∀ c ∈ cs, isInert c
  nonblank : ∀ c ∈ cs, isBlank c = false
  piece    : ∀ rest, pieces .outside 0 (cs ++ rest) = cs.foldr consFirst (pieces .outside 0 rest)

theorem IsOperand.of_plain (hn : a ≠ []) (h : ∀ c ∈ a, isPlain c) : IsOperand a where
  nonempty := hn
  inert c hc := isInert_of_isPlain (h c hc)
  nonblank c hc := isBlank_of_isPlain (h c hc)
  piece := pieces_plain h 0

theorem IsOperand.memory (ha : ∀ c ∈ a, isPlain c) (hb : ∀ c ∈ b, isPlain c) :
    IsOperand (a ++ '(' :: b ++ [')']) where
  nonempty := by simp
  inert := by
    have hp : isInert '(' ∧ isInert ')' := by decide
    simp [isPlain] at ha hb
    grind
  nonblank := by
    have hp : isBlank '(' = false ∧ isBlank ')' = false := by decide
    simp [isPlain] at ha hb
    grind
  piece rest := by
    simp [pieces_plain ha, pieces_plain hb, pieces, Quoting.next]

theorem pieces_separator (cs : Chars) :
    pieces .outside 0 (',' :: ' ' :: cs) = [] :: consFirst ' ' (pieces .outside 0 cs) := by
  simp [pieces, Quoting.next]

theorem map_trim_consFirst (h : isBlank c) {ps : List Chars} (hn : ps ≠ []) :
    (consFirst c ps).map trim = ps.map trim := by
  cases ps
  case nil => contradiction
  case cons p ps => rw [consFirst, List.map_cons, trim_cons_of_isBlank h, List.map_cons]

theorem map_trim_pieces {o : Chars} {os : List Chars} (h : ∀ p ∈ o :: os, IsOperand p) :
    (pieces .outside 0 ([',', ' '].intercalate (o :: os))).map trim = o :: os := by
  have ht {p} (hp : IsOperand p) (ps) :
      (p.foldr consFirst ([] :: ps)).map trim = p :: ps.map trim := by
    rw [foldr_consFirst, List.append_nil, List.map_cons, (Trimmed.of_forall hp.nonblank).trim_eq]
  induction os generalizing o
  case nil =>
    have ho := h o List.mem_cons_self
    rw [List.intercalate_singleton, ← o.append_nil, ho.piece, pieces, ht ho, List.append_nil]
    rfl
  case cons o' os hi =>
    have ⟨ho, hos⟩ := List.forall_mem_cons.mp h
    rw [List.intercalate_cons_cons, List.append_assoc, ho.piece]
    have hs := pieces_separator ([',', ' '].intercalate (o' :: os))
    rw [List.cons_append, List.cons_append, List.nil_append, hs, ht ho,
      map_trim_consFirst (c := ' ') rfl (pieces_ne_nil .outside 0 _), hi hos]

theorem intercalate_ne_nil {o : Chars} (ho : IsOperand o) (os : List Chars) :
    [',', ' '].intercalate (o :: os) ≠ [] := by
  have hn := ho.nonempty
  cases os
  case nil  => rwa [List.intercalate_singleton]
  case cons => simp [List.intercalate_cons_cons]

theorem trimmed_intercalate {ops : List Chars} (h : ∀ o ∈ ops, IsOperand o) :
    Trimmed ([',', ' '].intercalate ops) := by
  induction ops
  case nil => exact ⟨nofun, nofun⟩
  case cons o os hi =>
    have ⟨ho, hos⟩ := List.forall_mem_cons.mp h
    have ht := Trimmed.of_forall ho.nonblank
    cases os
    case nil => rwa [List.intercalate_singleton]
    case cons o' os =>
      rw [List.intercalate_cons_cons]
      have hn := intercalate_ne_nil (hos o' List.mem_cons_self) os
      exact ht.append (hi hos) ho.nonempty hn _

theorem isInert_intercalate {ops : List Chars} (h : ∀ o ∈ ops, IsOperand o) :
    ∀ c ∈ [',', ' '].intercalate ops, isInert c := by
  induction ops
  case nil => simp
  case cons o os hi =>
    have ⟨ho, hos⟩ := List.forall_mem_cons.mp h
    cases os
    case nil => simpa using ho.inert
    case cons o' os =>
      rw [List.intercalate_cons_cons]
      have hs : ∀ c ∈ [',', ' '], isInert c := List.all_eq_true.mp rfl
      have := hi hos
      have := ho.inert
      grind

-- Operands are read as they were joined.
theorem operands_intercalate {ops : List Chars} (h : ∀ o ∈ ops, IsOperand o) :
    operands ([',', ' '].intercalate ops) = ops := by
  rw [operands, (trimmed_intercalate h).trim_eq]
  cases ops
  case nil => rfl
  case cons o os =>
    split
    case h_1 hn => exact absurd hn (intercalate_ne_nil (h o List.mem_cons_self) os)
    case h_2 => exact map_trim_pieces h

-- A statement as it is printed: its first word, and its operands joined by commas.
def statementText (head : Chars) : List Chars → Chars
  | [] => head
  | ops => head ++ ' ' :: [',', ' '].intercalate ops

-- The parts of a statement that can be told apart in its text.
structure IsStatement (head : Chars) (ops : List Chars) : Prop where
  nonempty : head ≠ []
  plain    : ∀ c ∈ head, isPlain c
  operands : ∀ o ∈ ops, IsOperand o

namespace IsStatement

variable {head : Chars} {ops : List Chars}

theorem nonblank (h : IsStatement head ops) : ∀ c ∈ head, isBlank c = false :=
  fun c hc => isBlank_of_isPlain (h.plain c hc)

theorem headAndRest (h : IsStatement head ops) :
    headAndRest (statementText head ops) = (head, [',', ' '].intercalate ops) := by
  unfold statementText
  split
  case h_1 =>
    have hr : Source.headAndRest (head ++ []) = _ := headAndRest_append h.nonblank nofun
    rwa [List.append_nil] at hr
  case h_2 =>
    have hs : ∀ c ∈ (' ' :: [',', ' '].intercalate ops).head?, isBlank c := by
      rintro c ⟨⟩
      rfl
    rw [headAndRest_append h.nonblank hs, trim_cons_of_isBlank rfl,
      (trimmed_intercalate h.operands).trim_eq]

theorem inert (h : IsStatement head ops) : ∀ c ∈ statementText head ops, isInert c := by
  have hs : isInert ' ' := rfl
  have hi := isInert_intercalate h.operands
  have hh c hc := isInert_of_isPlain (h.plain c hc)
  unfold statementText
  split
  case h_1 => exact hh
  case h_2 => grind

theorem trimmed (h : IsStatement head ops) : Trimmed (statementText head ops) := by
  have ht := Trimmed.of_forall h.nonblank
  unfold statementText
  split
  case h_1 => exact ht
  case h_2 hne =>
    have hi : [',', ' '].intercalate ops ≠ [] := by
      cases ops
      case nil => exact absurd rfl hne
      case cons o os => exact intercalate_ne_nil (h.operands o List.mem_cons_self) os
    have := ht.append (trimmed_intercalate h.operands) h.nonempty hi [' ']
    rwa [List.append_assoc] at this

theorem text_ne_nil (h : IsStatement head ops) : statementText head ops ≠ [] := by
  have hn := h.nonempty
  unfold statementText
  split <;> simp [hn]

end IsStatement

end Source

end RV32IM
