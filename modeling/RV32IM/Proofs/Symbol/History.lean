import Mathlib
import RV32IM.Session

-- Symbol tables by their history. Names are added one after another, and some of them again. What
-- the table holds then is known from the adds that were made: the first of each name counts, and
-- the others fail and change nothing.

namespace RV32IM

namespace SymbolTable

-- The table after a name was added, or as it was if it holds that name already.
def offer (t : SymbolTable) (sym : Symbol) : SymbolTable :=
  match t.add sym with
  | .ok t' => t'
  | .error _ => t

-- The table after adds that were made one after another.
def ofAdds (history : List Symbol) : SymbolTable :=
  history.foldl offer empty

-- The first symbol of each name.
def firsts (history : List Symbol) : List Symbol :=
  history.eraseDupsBy fun later earlier => later.name == earlier.name

variable {t : SymbolTable} {sym : Symbol}

section Step

theorem offer_of_bound {old : Symbol} (h : t.get? sym.name = some old) : t.offer sym = t := by
  rw [offer, add_eq_error h]

theorem add_eq_ok (h : t.get? sym.name = none) : t.add sym = .ok (t.push sym h) := by
  unfold add
  split
  case h_1 h' => cases h.symm.trans h'
  case h_2 => rfl

theorem offer_of_free (h : t.get? sym.name = none) : t.offer sym = t.push sym h := by
  rw [offer, add_eq_ok h]

theorem get?_offer (t : SymbolTable) (sym : Symbol) (name : String) :
    (t.offer sym).get? name = (t.get? name).or ([sym].find? (·.name = name)) := by
  cases h : t.get? sym.name
  case none =>
    rw [offer_of_free h, get?_push]
    grind
  case some old =>
    rw [offer_of_bound h]
    grind

theorem symbols_offer_of_free (h : t.get? sym.name = none) :
    (t.offer sym).symbols.toList = t.symbols.toList ++ [sym] := by
  rw [offer_of_free h, push, Array.toList_push]

end Step

section Run

theorem get?_foldl_offer (t : SymbolTable) (syms : List Symbol) (name : String) :
    (syms.foldl offer t).get? name = (t.get? name).or (syms.find? (·.name = name)) := by
  induction syms generalizing t
  case nil => simp
  case cons sym syms ih =>
    rw [List.foldl_cons, ih, get?_offer, Option.or_assoc, ← List.find?_append,
      List.singleton_append]

theorem firsts_cons (sym : Symbol) (syms : List Symbol) :
    firsts (sym :: syms) = sym :: firsts (syms.filter (·.name ≠ sym.name)) := by
  simp [firsts, List.eraseDupsBy_cons]

-- Of the names that are not bound at the outset each first one is appended.
theorem symbols_foldl_offer (t : SymbolTable) (syms : List Symbol) :
    (syms.foldl offer t).symbols.toList =
      t.symbols.toList ++ firsts (syms.filter fun sym => (t.get? sym.name).isNone) := by
  induction syms generalizing t
  case nil => simp [firsts]
  case cons sym syms ih =>
    rw [List.foldl_cons, ih, List.filter_cons]
    cases h : t.get? sym.name
    case some old => simp [offer_of_bound h]
    case none =>
      have hfree (later : Symbol) : ((t.offer sym).get? later.name).isNone =
          (decide (later.name ≠ sym.name) && (t.get? later.name).isNone) := by
        rw [get?_offer]
        grind
      simp [symbols_offer_of_free h, firsts_cons, hfree]

theorem symbols_ofAdds (history : List Symbol) :
    (ofAdds history).symbols.toList = firsts history := by
  have hempty : empty.symbols.toList = [] := rfl
  simp [ofAdds, symbols_foldl_offer, hempty]

theorem get?_ofAdds (history : List Symbol) (name : String) :
    (ofAdds history).get? name = history.find? (·.name = name) := by
  simp [ofAdds, get?_foldl_offer]

-- A name has one position, so no two symbols share it.
theorem nodup_names (t : SymbolTable) : (t.symbols.toList.map Symbol.name).Nodup := by
  refine List.nodup_iff_getElem?_ne_getElem?.mpr fun i j hij hj he => ?_
  have hname := List.getElem?_eq_getElem hj
  rw [hname] at he
  have hi := (t.index_iff _ i).mpr (by simpa using he)
  have hj := (t.index_iff _ j).mpr (by simpa using hname)
  exact Nat.ne_of_lt hij (Option.some.inj (hi.symm.trans hj))

theorem ofAdds_append (history later : List Symbol) :
    ofAdds (history ++ later) = later.foldl offer (ofAdds history) :=
  List.foldl_append ..

end Run

end SymbolTable

namespace Session

open SymbolTable

theorem symbols_define (s : Session) (sym : Symbol) :
    (s.define sym).symbols = s.symbols.offer sym := by
  unfold define offer
  cases s.symbols.add sym <;> rfl

-- What a session does with the outcome of an add is to keep the table that it has then.
theorem symbols_foldl_define (s : Session) (syms : List Symbol) :
    (syms.foldl define s).symbols = syms.foldl offer s.symbols := by
  induction syms generalizing s
  case nil => rfl
  case cons sym syms ih => rw [List.foldl_cons, ih, symbols_define, List.foldl_cons]

theorem define_of_bound {s : Session} {sym old : Symbol} (h : s.symbols.get? sym.name = some old) :
    s.define sym = s.report (.duplicateSymbol sym.name old.address) := by
  rw [← (get?_eq_some_iff.mp h).right, define, add_eq_error h]

end Session

namespace SymbolTable

-- After any adds the list holds the first symbol of each name, in their order, and the index the
-- position of each. What a name is bound to stays for all later adds. To add it again fails with
-- the first symbol and changes nothing, and to add a new name succeeds. The table of a session is
-- the one of its definitions, and a session reports those that fail.
theorem ofAdds_history (history : List Symbol) :
    (ofAdds history).symbols.toList = firsts history ∧
    ((firsts history).map Symbol.name).Nodup ∧
    (∀ name i, (ofAdds history).index[name]? = some i ↔
      (firsts history)[i]?.map Symbol.name = some name) ∧
    (∀ name, (ofAdds history).get? name = history.find? (·.name = name)) ∧
    (∀ name sym, history.find? (·.name = name) = some sym →
      ∀ later, (ofAdds (history ++ later)).get? name = some sym) ∧
    (∀ sym first, history.find? (·.name = sym.name) = some first →
      (ofAdds history).add sym = .error first ∧ ofAdds (history ++ [sym]) = ofAdds history ∧
      ∀ s : Session, s.symbols = ofAdds history →
        s.define sym = s.report (.duplicateSymbol sym.name first.address)) ∧
    (∀ sym, history.find? (·.name = sym.name) = none → ∃ t, (ofAdds history).add sym = .ok t) ∧
    (∀ base, (history.foldl Session.define (Session.start base)).symbols = ofAdds history) := by
  have hlist := symbols_ofAdds history
  have hget := get?_ofAdds history
  refine ⟨hlist, hlist ▸ nodup_names _, fun name i => ?_, hget, fun name sym h later => ?_,
    fun sym first h => ⟨?_, ?_, fun s hs => ?_⟩, fun sym h => ?_, fun base => ?_⟩
  case refine_1 => rw [index_iff, ← hlist, Array.getElem?_toList]
  case refine_2 => rw [get?_ofAdds, List.find?_append, h, Option.some_or]
  case refine_3 => exact add_eq_error ((hget _).trans h)
  case refine_4 => exact (ofAdds_append ..).trans (offer_of_bound ((hget _).trans h))
  case refine_5 => exact Session.define_of_bound (hs ▸ (hget _).trans h)
  case refine_6 => exact ⟨_, add_eq_ok ((hget _).trans h)⟩
  case refine_7 => exact Session.symbols_foldl_define ..

-- A label that is defined again, before and after another one.
theorem ofAdds_history_again :
    let loop : Symbol := ⟨"loop", 0x10, false⟩
    let stop : Symbol := ⟨"stop", 0x20, false⟩
    let history := [loop, stop, ⟨"loop", 0x30, false⟩]
    let s := history.foldl Session.define (Session.start 0)
    (ofAdds history).symbols.toList = [loop, stop] ∧
    (ofAdds history).index["stop"]? = some 1 ∧
    history.find? (·.name = "stop") = some stop ∧
    (ofAdds (history ++ [⟨"stop", 0x40, true⟩])).get? "stop" = some stop ∧
    history.find? (·.name = "loop") = some loop ∧
    (ofAdds history).add ⟨"loop", 0x50, false⟩ = .error loop ∧
    s.symbols = ofAdds history ∧
    s.define ⟨"loop", 0x50, false⟩ = s.report (.duplicateSymbol "loop" 0x10) ∧
    history.find? (·.name = "start") = none ∧
    ∃ t, (ofAdds history).add ⟨"start", 0x60, false⟩ = .ok t := by
  intro loop stop history s
  have ⟨hlist, _, hindex, _, hlater, hagain, hnew, hsession⟩ := ofAdds_history history
  have hfirsts : firsts history = [loop, stop] := by decide
  have hfirst : history.find? (·.name = "loop") = some loop := by decide
  have ⟨hfails, _, hreport⟩ := hagain ⟨"loop", 0x50, false⟩ loop hfirst
  refine ⟨hlist.trans hfirsts, (hindex ..).mpr ?_, ?_, hlater "stop" stop ?_ _, hfirst, hfails,
    hsession 0, hreport s (hsession 0), ?_, hnew ⟨"start", 0x60, false⟩ ?_⟩
  all_goals decide

end SymbolTable

end RV32IM
