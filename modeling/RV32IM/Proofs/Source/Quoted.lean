import RV32IM.Proofs.Text.Digits
import RV32IM.Source.Quoted

-- The grammar of string literals: which texts are read as one, and the bytes that they denote. All
-- literals are read. Beside them a quote is let pass that ends no literal, and an escape of which a
-- digit is missing, or is a sign.

namespace RV32IM

theorem bind_eq_ok_iff {ε α β : Type} {y : Except ε α} {f : α → Except ε β} {b : β} :
    y >>= f = .ok b ↔ ∃ a, y = .ok a ∧ f a = .ok b := by
  cases y <;> simp [bind, Except.bind]

theorem pure_eq_ok_iff {ε α : Type} {a b : α} : (pure a : Except ε α) = .ok b ↔ a = b := by
  simp [pure, Except.pure]

namespace Text

variable {a b cs : List Char} {c : Char}

theorem dropStart?_eq_some_iff : dropStart? a cs = some b ↔ cs = a ++ b := by
  unfold dropStart?
  constructor
  case mp =>
    intro h
    split at h
    case isTrue hp =>
      obtain ⟨ds, rfl⟩ := List.isPrefixOf_iff_prefix.mp hp
      rw [List.drop_left] at h
      rw [Option.some.inj h]
    case isFalse => cases h
  case mpr =>
    rintro rfl
    rw [if_pos (List.isPrefixOf_iff_prefix.mpr (List.prefix_append a b)), List.drop_left]

theorem dropLast?_eq_some_iff : dropLast? c cs = some a ↔ cs = a ++ [c] := by
  unfold dropLast?
  constructor
  case mp =>
    intro h
    split at h
    case isTrue hc =>
      obtain ⟨ds, rfl⟩ := List.getLast?_eq_some_iff.mp hc
      rw [List.dropLast_concat] at h
      rw [Option.some.inj h]
    case isFalse => cases h
  case mpr =>
    rintro rfl
    rw [if_pos List.getLast?_concat, List.dropLast_concat]

end Text

namespace Source.Quoted

open Numeral Text

-- The escapes of one character, and the byte that each of them stands for.
def escapes : List (Char × Byte) :=
  [('n', 10), ('t', 9), ('r', 13), ('0', 0), ('\\', 92), ('"', 34)]

-- One character or escape between the quotes of a literal, and the bytes that it denotes.
inductive Part : Chars → List Byte → Prop
  | char {c} : c ≠ '"' → c ≠ '\\' → Part [c] (Utf8.encodeChar c)
  | escape {e b} : (e, b) ∈ escapes → Part ['\\', e] [b]
  | hex {a b m n} : IsDigit 16 a m → IsDigit 16 b n →
    Part ['\\', 'x', a, b] [.ofNat 8 (m * 16 + n)]

inductive Body : Chars → List Byte → Prop
  | nil : Body [] []
  | cons {p cs bs bs'} : Part p bs → Body cs bs' → Body (p ++ cs) (bs ++ bs')

inductive Literal : Chars → List Byte → Prop
  | quoted {body bs} : Body body bs → Literal ('"' :: (body ++ ['"'])) bs

-- What is let pass between the quotes. Of the two digits of an escape the first may be a plus sign,
-- and at the end of the text the second may be missing.
inductive Lax : Chars → List Byte → Prop
  | nil : Lax [] []
  | part {p cs bs bs'} : Part p bs → Lax cs bs' → Lax (p ++ cs) (bs ++ bs')
  | quote {cs bs} : Lax cs bs → Lax ('"' :: cs) (34 :: bs)
  | signed {d n cs bs} : IsDigit 16 d n → Lax cs bs →
    Lax ('\\' :: 'x' :: '+' :: d :: cs) (.ofNat 8 n :: bs)
  | short {d n} : IsDigit 16 d n → Lax ['\\', 'x', d] [.ofNat 8 n]

-- How a text goes on that no body of a literal goes on with.
inductive Stray : Chars → Prop
  | quote {cs} : Stray ('"' :: cs)
  | signed {d cs} : Stray ('\\' :: 'x' :: '+' :: d :: cs)
  | short {d} : Stray ['\\', 'x', d]

-- Whether a text is no body of a literal, because of what it goes on with after a part that is one.
def Strays (body : Chars) : Prop :=
  ∃ front rest bs, body = front ++ rest ∧ Body front bs ∧ Stray rest

variable {a b c d e : Char} {p cs body : Chars} {bs : List Byte} {x : Byte}

section Escapes

theorem simpleEscape?_eq_some_iff : simpleEscape? e = some x ↔ (e, x) ∈ escapes := by
  constructor
  case mp =>
    intro h
    unfold simpleEscape? at h
    split at h <;> cases h <;> decide
  case mpr =>
    intro h
    have hall : ∀ p ∈ escapes, simpleEscape? p.1 = some p.2 := by decide
    exact hall (e, x) h

theorem ne_of_mem_escapes (h : (e, x) ∈ escapes) : e ≠ 'x' := by
  have hall : ∀ p ∈ escapes, p.1 ≠ 'x' := by decide
  exact hall (e, x) h

theorem hexByte_eq_ok_iff :
    hexByte cs = .ok x ↔ ∃ n, natural 16 256 cs = .ok n ∧ .ofNat 8 n = x := by
  unfold hexByte
  split <;> simp_all

theorem digits_single_iff {n : Nat} : Digits 16 [a] n ↔ IsDigit 16 a n := by
  constructor
  case mp =>
    rintro (_ | ⟨hd, ⟨⟩⟩)
    simpa using hd
  case mpr =>
    intro h
    simpa using Digits.cons h .nil

theorem digits_pair_iff {n : Nat} :
    Digits 16 [a, b] n ↔ ∃ k m, IsDigit 16 a k ∧ IsDigit 16 b m ∧ n = k * 16 + m := by
  constructor
  case mp =>
    rintro (_ | ⟨hk, hm⟩)
    exact ⟨_, _, hk, digits_single_iff.mp hm, rfl⟩
  case mpr =>
    rintro ⟨k, m, hk, hm, rfl⟩
    exact .cons hk (digits_single_iff.mpr hm)

-- Two digits, or one after a plus sign.
theorem hexByte_pair_iff : hexByte [a, b] = .ok x ↔
    (∃ m n, IsDigit 16 a m ∧ IsDigit 16 b n ∧ .ofNat 8 (m * 16 + n) = x) ∨
      ∃ n, a = '+' ∧ IsDigit 16 b n ∧ .ofNat 8 n = x := by
  simp only [hexByte_eq_ok_iff, natural_eq_ok_iff (by decide : 16 ≤ 16) (by decide : 0 < 256)]
  constructor
  case mp =>
    rintro ⟨n, ⟨ds, h | h, hn, hd, hlt⟩, hx⟩
    case inl =>
      subst h
      obtain ⟨k, m, hk, hm, rfl⟩ := digits_pair_iff.mp hd
      exact .inl ⟨k, m, hk, hm, hx⟩
    case inr =>
      cases h
      exact .inr ⟨n, rfl, digits_single_iff.mp hd, hx⟩
  case mpr =>
    rintro (⟨k, m, hk, hm, hx⟩ | ⟨n, rfl, hn, hx⟩)
    case inl =>
      have hlt : k * 16 + m < 256 := by have := hk.lt; have := hm.lt; omega
      exact ⟨_, ⟨_, .inl rfl, nofun, digits_pair_iff.mpr ⟨k, m, hk, hm, rfl⟩, hlt⟩, hx⟩
    case inr =>
      have hlt : n < 256 := by have := hn.lt; omega
      exact ⟨n, ⟨_, .inr rfl, nofun, digits_single_iff.mpr hn, hlt⟩, hx⟩

theorem hexByte_single_iff : hexByte [a] = .ok x ↔ ∃ n, IsDigit 16 a n ∧ .ofNat 8 n = x := by
  simp only [hexByte_eq_ok_iff, natural_eq_ok_iff (by decide : 16 ≤ 16) (by decide : 0 < 256)]
  constructor
  case mp =>
    rintro ⟨n, ⟨ds, h | h, hn, hd, hlt⟩, hx⟩
    case inl =>
      subst h
      exact ⟨n, digits_single_iff.mp hd, hx⟩
    case inr =>
      cases h
      exact absurd rfl hn
  case mpr =>
    rintro ⟨n, hn, hx⟩
    have hlt : n < 256 := by have := hn.lt; omega
    exact ⟨n, ⟨_, .inl rfl, nofun, digits_single_iff.mpr hn, hlt⟩, hx⟩

end Escapes

section Decoding

-- Decoding takes one part at a time.

theorem decode_char_eq_ok_iff (hc : c ≠ '\\') :
    decode (c :: cs) = .ok bs ↔ ∃ bs', decode cs = .ok bs' ∧ Utf8.encodeChar c ++ bs' = bs := by
  rw [decode.eq_def]
  simp only [hc, if_false, bind_eq_ok_iff, pure_eq_ok_iff]

theorem decode_escape_eq_ok_iff (he : e ≠ 'x') :
    decode ('\\' :: e :: cs) = .ok bs ↔
      ∃ x bs', (e, x) ∈ escapes ∧ decode cs = .ok bs' ∧ x :: bs' = bs := by
  rw [decode.eq_def]
  simp only [he, if_true, if_false, ← simpleEscape?_eq_some_iff]
  cases simpleEscape? e
  case none => simp
  case some x =>
    simp only [Option.some.injEq, bind_eq_ok_iff, pure_eq_ok_iff, exists_and_left, exists_eq_left']

theorem decode_hex_eq_ok_iff :
    decode ('\\' :: 'x' :: a :: b :: cs) = .ok bs ↔
      ∃ x bs', hexByte [a, b] = .ok x ∧ decode cs = .ok bs' ∧ x :: bs' = bs := by
  rw [decode.eq_def]
  simp only [if_true, bind_eq_ok_iff, pure_eq_ok_iff, exists_and_left]

theorem decode_rest_eq_ok_iff (hcs : ∀ a b ds, cs ≠ a :: b :: ds) :
    decode ('\\' :: 'x' :: cs) = .ok bs ↔ ∃ x, hexByte cs = .ok x ∧ [x] = bs := by
  rw [decode.eq_def]
  simp only [if_true, bind_eq_ok_iff, pure_eq_ok_iff]

theorem decode_of_lax (h : Lax body bs) : decode body = .ok bs := by
  induction h
  case nil => rfl
  case part hp _ ih =>
    cases hp
    case char hq hb => exact (decode_char_eq_ok_iff hb).mpr ⟨_, ih, rfl⟩
    case escape he =>
      exact (decode_escape_eq_ok_iff (ne_of_mem_escapes he)).mpr ⟨_, _, he, ih, rfl⟩
    case hex hm hn =>
      have hx := hexByte_pair_iff.mpr (.inl ⟨_, _, hm, hn, rfl⟩)
      exact decode_hex_eq_ok_iff.mpr ⟨_, _, hx, ih, rfl⟩
  case quote ih => exact (decode_char_eq_ok_iff (by decide)).mpr ⟨_, ih, rfl⟩
  case signed hn _ ih =>
    have hx := hexByte_pair_iff.mpr (.inr ⟨_, rfl, hn, rfl⟩)
    exact decode_hex_eq_ok_iff.mpr ⟨_, _, hx, ih, rfl⟩
  case short hn =>
    have hx := hexByte_single_iff.mpr ⟨_, hn, rfl⟩
    exact (decode_rest_eq_ok_iff (by simp)).mpr ⟨_, hx, rfl⟩

theorem lax_of_decode (h : decode body = .ok bs) : Lax body bs := by
  induction body using decode.induct generalizing bs
  case case1 =>
    cases h
    exact .nil
  case case2 => cases h
  case case3 a b cs ih =>
    obtain ⟨x, bs', hx, hcs, rfl⟩ := decode_hex_eq_ok_iff.mp h
    rcases hexByte_pair_iff.mp hx with ⟨m, n, hm, hn, rfl⟩ | ⟨n, rfl, hn, rfl⟩
    case inl => exact .part (.hex hm hn) (ih hcs)
    case inr => exact .signed hn (ih hcs)
  case case4 ds hds =>
    obtain ⟨x, hx, rfl⟩ := (decode_rest_eq_ok_iff hds).mp h
    match ds with
    | [] => cases hx
    | [d] =>
      obtain ⟨n, hn, rfl⟩ := hexByte_single_iff.mp hx
      exact .short hn
    | a :: b :: ds => exact absurd rfl (hds a b ds)
  case case5 e cs he x hx ih =>
    obtain ⟨x', bs', he', hcs, rfl⟩ := (decode_escape_eq_ok_iff he).mp h
    exact .part (.escape he') (ih hcs)
  case case6 e cs he hx =>
    obtain ⟨x, bs', he', -, -⟩ := (decode_escape_eq_ok_iff he).mp h
    rw [simpleEscape?_eq_some_iff.mpr he'] at hx
    cases hx
  case case7 c cs hc ih =>
    obtain ⟨bs', hcs, rfl⟩ := (decode_char_eq_ok_iff hc).mp h
    by_cases hq : c = '"'
    case pos =>
      subst hq
      exact .quote (ih hcs)
    case neg => exact .part (.char hq hc) (ih hcs)

end Decoding

section Bodies

theorem Body.lax (h : Body body bs) : Lax body bs := by
  induction h
  case nil => exact .nil
  case cons hp _ ih => exact .part hp ih

theorem Strays.append (hp : Part p bs) (h : Strays cs) : Strays (p ++ cs) := by
  obtain ⟨front, rest, bs', rfl, hf, hs⟩ := h
  exact ⟨p ++ front, rest, _, (List.append_assoc ..).symm, .cons hp hf, hs⟩

theorem Stray.strays (h : Stray cs) : Strays cs :=
  ⟨[], cs, [], rfl, .nil, h⟩

theorem Lax.body_or_strays (h : Lax body bs) : Body body bs ∨ Strays body := by
  induction h
  case nil => exact .inl .nil
  case part hp _ ih => exact ih.imp (.cons hp) (.append hp)
  case quote => exact .inr Stray.quote.strays
  case signed => exact .inr Stray.signed.strays
  case short => exact .inr Stray.short.strays

-- No part is the beginning of another.
theorem Part.eq_of_append {p' cs' : Chars} {bs' : List Byte} (hp : Part p bs) (hp' : Part p' bs')
    (h : p ++ cs = p' ++ cs') : p = p' := by
  cases hp <;> cases hp' <;> grind [ne_of_mem_escapes]

theorem Body.drop_part {bs' : List Byte} (hp : Part p bs') (h : Body (p ++ cs) bs) :
    ∃ bs, Body cs bs := by
  generalize ht : p ++ cs = t at h
  cases h
  case nil => cases hp <;> simp at ht
  case cons hp' hcs =>
    cases hp.eq_of_append hp' ht
    cases List.append_cancel_left ht
    exact ⟨_, hcs⟩

theorem Body.drop_body {bs' : List Byte} (hp : Body p bs') (h : Body (p ++ cs) bs) :
    ∃ bs, Body cs bs := by
  induction hp generalizing bs
  case nil => exact ⟨bs, h⟩
  case cons hp _ ih =>
    rw [List.append_assoc] at h
    obtain ⟨_, h⟩ := h.drop_part hp
    exact ih h

theorem Stray.not_body (h : Stray cs) : ¬Body cs bs := by
  have hplus {n : Nat} : ¬IsDigit 16 '+' n := fun h => h.ne (digit?_plus 16) (by decide) rfl
  generalize ht : cs = t at h
  intro hb
  cases hb
  case nil => cases h
  case cons p _ _ _ hp _ =>
    cases hp
    case char => cases h <;> cases ht <;> contradiction
    case escape he => cases h <;> cases ht <;> exact ne_of_mem_escapes he rfl
    case hex ha _ =>
      cases h
      case signed =>
        cases ht
        exact hplus ha

theorem Strays.not_body (h : Strays body) : ¬Body body bs := by
  obtain ⟨front, rest, _, rfl, hf, hs⟩ := h
  intro hb
  obtain ⟨_, hb⟩ := hf.drop_body hb
  exact hs.not_body hb

end Bodies

section Quotes

theorem body?_eq_some_iff : body? cs = some body ↔ trim cs = '"' :: (body ++ ['"']) := by
  simp [body?, Option.bind_eq_some_iff, dropStart?_eq_some_iff, dropLast?_eq_some_iff]

theorem read_eq_ok_iff :
    read cs = .ok bs ↔ ∃ body, trim cs = '"' :: (body ++ ['"']) ∧ Lax body bs := by
  simp only [← body?_eq_some_iff]
  unfold read
  cases body? cs
  case none => simp
  case some body => simpa using ⟨lax_of_decode, decode_of_lax⟩

theorem literal_iff : Literal ('"' :: (body ++ ['"'])) bs ↔ Body body bs := by
  constructor
  case mpr => exact .quoted
  case mp =>
    generalize ht : '"' :: (body ++ ['"']) = t
    rintro ⟨hb⟩
    cases List.append_cancel_right (List.cons.inj ht).right
    exact hb

theorem read_of_literal (h : Literal (trim cs) bs) : read cs = .ok bs := by
  generalize ht : trim cs = t at h
  cases h
  case quoted body hb => exact read_eq_ok_iff.mpr ⟨body, ht, hb.lax⟩

end Quotes

-- Every literal is read as the bytes that it denotes. What is read besides is a text in quotes that
-- strays from a literal, and such a text denotes the bytes that its parts and the strays stand for.
theorem read_grammar (cs : Chars) :
    (∀ bs, Literal (trim cs) bs → read cs = .ok bs) ∧
    (∀ bs, read cs = .ok bs ↔ ∃ body, trim cs = '"' :: (body ++ ['"']) ∧ Lax body bs) ∧
    ∀ bs body, read cs = .ok bs → trim cs = '"' :: (body ++ ['"']) →
      (Literal (trim cs) bs ↔ ¬Strays body) := by
  refine ⟨fun bs => read_of_literal, fun bs => read_eq_ok_iff, fun bs body h ht => ?_⟩
  obtain ⟨body', ht', hlax⟩ := read_eq_ok_iff.mp h
  obtain rfl : body' = body := List.append_cancel_right (List.cons.inj (ht'.symm.trans ht)).right
  rw [ht, literal_iff]
  exact ⟨fun hb hs => hs.not_body hb, hlax.body_or_strays.resolve_right⟩

-- The quote that ends a text may be one that is escaped inside the literal.
theorem read_escapes : read "\t\"\\x4A\\\"\" ".toList = .ok [0x4A, 34] := by
  have htrim : trim "\t\"\\x4A\\\"\" ".toList =
      '"' :: (['\\', 'x', '4', 'A'] ++ (['\\', '"'] ++ []) ++ ['"']) := by decide
  have hhigh : IsDigit 16 '4' 4 := ⟨by decide, by decide⟩
  have hlow : IsDigit 16 'A' 10 := ⟨by decide, by decide⟩
  have hbody := Body.cons (.hex hhigh hlow) (.cons (.escape (e := '"') (b := 34) (by decide)) .nil)
  exact (read_grammar _).left _ (htrim ▸ .quoted hbody)

-- Two literals with a comma between are read as one, and so are escapes without their second digit
-- or with a sign for the first. None of them is a literal.
theorem read_strays :
    read "\"a\", \"b\"".toList = .ok [97, 34, 44, 32, 34, 98] ∧ read "\"\\x5\"".toList = .ok [5] ∧
    read "\"\\x+f\"".toList = .ok [15] ∧
    ∀ bs, ¬Literal "\"a\", \"b\"".toList bs ∧ ¬Literal "\"\\x5\"".toList bs ∧
      ¬Literal "\"\\x+f\"".toList bs := by
  have hnot {cs} body (ht : cs = '"' :: (body ++ ['"'])) (hs : Strays body) bs : ¬Literal cs bs :=
    fun h => hs.not_body (literal_iff.mp (ht ▸ h))
  have ha : Body ['a'] (Utf8.encodeChar 'a' ++ []) := .cons (.char (by decide) (by decide)) .nil
  refine ⟨by decide +kernel, by decide +kernel, by decide +kernel, fun bs => ⟨?_, ?_, ?_⟩⟩
  case refine_1 => exact hnot "a\", \"b".toList rfl ⟨['a'], _, _, rfl, ha, .quote⟩ bs
  case refine_2 => exact hnot "\\x5".toList rfl (Stray.strays .short) bs
  case refine_3 => exact hnot "\\x+f".toList rfl (Stray.strays .signed) bs

end Source.Quoted

end RV32IM
