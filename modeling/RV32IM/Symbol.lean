import RV32IM.Word
import Std.Data.HashMap

-- Symbols: names bound to addresses, and the relocations that wait for them.

namespace RV32IM

structure Symbol where
  name    : String
  address : Word
  -- Made up by the assembler and not by its user.
  isLocal : Bool
  deriving DecidableEq

-- Bindings in the order of their definition, and the position of each name among them. A name has
-- one position, so no two bindings share a name.
structure SymbolTable where
  symbols   : Array Symbol
  index     : Std.HashMap String Nat
  index_iff : ∀ name i, index[name]? = some i ↔ symbols[i]?.map Symbol.name = some name

namespace SymbolTable

def empty : SymbolTable where
  symbols := #[]
  index := ∅
  index_iff := by simp

def size (t : SymbolTable) : Nat :=
  t.symbols.size

def get? (t : SymbolTable) (name : String) : Option Symbol :=
  t.index[name]?.bind (t.symbols[·]?)

def address? (t : SymbolTable) (name : String) : Option Word :=
  (t.get? name).map (·.address)

def contains (t : SymbolTable) (name : String) : Bool :=
  t.index.contains name

theorem get?_eq_some_iff {t : SymbolTable} {name : String} {sym : Symbol} :
    t.get? name = some sym ↔ sym ∈ t.symbols ∧ sym.name = name := by
  simp only [get?, Option.bind_eq_some_iff, t.index_iff, Option.map_eq_some_iff,
    Array.mem_iff_getElem?]
  constructor
  case mp =>
    intro ⟨i, ⟨_, hi, hn⟩, h⟩
    cases hi ▸ h
    exact ⟨⟨i, hi⟩, hn⟩
  case mpr =>
    intro ⟨⟨i, hi⟩, hn⟩
    exact ⟨i, ⟨sym, hi, hn⟩, hi⟩

theorem get?_eq_none_iff {t : SymbolTable} {name : String} :
    t.get? name = none ↔ ∀ sym ∈ t.symbols, sym.name ≠ name := by
  simp [Option.eq_none_iff_forall_ne_some, get?_eq_some_iff]

@[simp]
theorem get?_empty (name : String) : empty.get? name = none := by
  simp [get?, empty]

theorem contains_iff {t : SymbolTable} {name : String} :
    t.contains name = true ↔ (t.get? name).isSome := by
  simp only [contains, Std.HashMap.contains_eq_isSome_getElem?, Option.isSome_iff_exists,
    t.index_iff, get?_eq_some_iff, Option.map_eq_some_iff, Array.mem_iff_getElem?]
  constructor
  case mp  => exact fun ⟨i, sym, hi, hn⟩ => ⟨sym, ⟨i, hi⟩, hn⟩
  case mpr => exact fun ⟨sym, ⟨i, hi⟩, hn⟩ => ⟨i, sym, hi, hn⟩

def push (t : SymbolTable) (sym : Symbol) (h : t.get? sym.name = none) : SymbolTable where
  symbols := t.symbols.push sym
  index := t.index.insert sym.name t.symbols.size
  index_iff name i := by
    have hn := get?_eq_none_iff.mp h
    have ht := t.index_iff name i
    grind

theorem get?_push {t : SymbolTable} {sym : Symbol} {h : t.get? sym.name = none} (name : String) :
    (t.push sym h).get? name = if name = sym.name then some sym else t.get? name := by
  ext s
  grind [get?_eq_some_iff, push]

-- Binds a name for good. A name that is bound already keeps its binding, which is then what the
-- error holds.
def add (t : SymbolTable) (sym : Symbol) : Except Symbol SymbolTable :=
  match h : t.get? sym.name with
  | some old => .error old
  | none => .ok (t.push sym h)

theorem get?_of_add_eq_ok {t t' : SymbolTable} {sym : Symbol} (h : t.add sym = .ok t')
    (name : String) :
    t'.get? name = if name = sym.name then some sym else t.get? name := by
  unfold add at h
  split at h
  case h_1 => cases h
  case h_2 =>
    cases h
    exact get?_push name

theorem add_eq_ok_iff {t : SymbolTable} {sym : Symbol} :
    (∃ t', t.add sym = .ok t') ↔ t.get? sym.name = none := by
  unfold add
  split <;> simp_all

theorem symbols_of_add_eq_ok {t t' : SymbolTable} {sym : Symbol} (h : t.add sym = .ok t') :
    t'.symbols = t.symbols.push sym := by
  unfold add at h
  split at h
  case h_1 => cases h
  case h_2 =>
    cases h
    rfl

theorem add_eq_error {t : SymbolTable} {sym old : Symbol} (h : t.get? sym.name = some old) :
    t.add sym = .error old := by
  unfold add
  split <;> simp_all

end SymbolTable

inductive RelocKind
  | jump
  | branch
  -- A whole word that holds an address.
  | word
  -- The upper part of a pc-relative displacement.
  | hi
  -- The lower part of a displacement whose upper part sits at the target's address.
  | lo
  deriving DecidableEq

def RelocKind.name : RelocKind → String
  | jump => "JumpPcRel"
  | branch => "BranchPcRel"
  | word => "AbsoluteWord32"
  | hi => "HiPcRel20"
  | lo => "LoPcRel12"

-- The width in bits of a displacement, sign included.
def RelocKind.width : RelocKind → Nat
  | jump => 21
  | branch => 13
  | word => 32
  | hi => 20
  | lo => 12

-- A word at `site` that has to be patched once `target` is bound.
structure Relocation where
  site   : Word
  kind   : RelocKind
  target : String
  deriving DecidableEq

end RV32IM
