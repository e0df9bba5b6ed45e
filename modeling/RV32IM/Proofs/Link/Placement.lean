import RV32IM.Link
import RV32IM.Proofs.Memory.Gap
import RV32IM.Proofs.Memory.Mapping

-- Placing an object in memory of its own: pages for its image, then the image in them, then a stack
-- beside it. Where they come to be depends on the size of the image and not on its bytes.

namespace RV32IM

namespace AddressSpace

variable {s s' : AddressSpace} {size : Nat} {top : Option Word}

-- There is no stack, or it is a region below its top.
theorem allocateStack_cases (h : s.allocateStack size = .ok (top, s')) :
    (top = none ∧ s' = s) ∨
      ∃ bottom, top = some (bottom + BitVec.ofNat 32 size) ∧
        s.allocate bottom (pageCeil size) .readWrite = .ok s' := by
  unfold allocateStack at h
  split at h
  case isTrue =>
    cases h
    exact .inl ⟨rfl, rfl⟩
  case isFalse =>
    have ⟨⟨bottom, _⟩, ha, he⟩ := exists_of_map_eq_ok h
    cases he
    exact .inr ⟨bottom, rfl, allocate_of_allocateAnywhere ha⟩

theorem wellFormed_allocateStack (hs : s.WellFormed) (h : s.allocateStack size = .ok (top, s')) :
    s'.WellFormed := by
  obtain ⟨_, rfl⟩ | ⟨_, _, ha⟩ := allocateStack_cases h
  case inl => exact hs
  case inr => exact wellFormed_allocate hs ha

-- A stack is a region of zeros that is added to what is mapped.
theorem gap_of_allocateStack (hs : s.WellFormed) (hz : size ≠ 0)
    (h : s.allocateStack size = .ok (top, s')) :
    ∃ bottom : Word, top = some (bottom + BitVec.ofNat 32 size) ∧
      s.Gap (pageCeil size) bottom.toNat ∧ bottom ∉ s.keys ∧
      s' = s.insert bottom ⟨bottom, .readWrite, Array.replicate (pageCeil size) 0⟩ := by
  rw [allocateStack, if_neg hz] at h
  obtain ⟨⟨bottom, _⟩, ha, he⟩ := exists_of_map_eq_ok h
  cases he
  exact ⟨bottom, rfl, gap_of_allocateAnywhere hs ha⟩

-- Where the stack is does not depend on what memory holds.
theorem Alike.allocateStack {on : Access → Prop} {t : AddressSpace} (h : s.Alike on t)
    (hs : s.allocateStack size = .ok (top, s')) :
    ∃ t', t.allocateStack size = .ok (top, t') ∧ s'.Alike on t' := by
  unfold AddressSpace.allocateStack at *
  split at hs
  case isTrue hz =>
    cases hs
    exact ⟨t, if_pos hz, h⟩
  case isFalse hz =>
    have ⟨⟨bottom, _⟩, ha, he⟩ := exists_of_map_eq_ok hs
    cases he
    have ⟨t', ha', ht⟩ := h.allocateAnywhere ha
    exact ⟨t', by rw [if_neg hz, ha']; rfl, ht⟩

theorem Maps.allocateStack {base : Word} {access : Access} {bs : List Byte}
    (h : s.Maps base access bs) (hbs : bs ≠ []) (hs : s.allocateStack size = .ok (top, s')) :
    s'.Maps base access bs := by
  obtain ⟨_, rfl⟩ | ⟨_, _, ha⟩ := allocateStack_cases hs
  case inl => exact h
  case inr => exact h.allocate hbs ha

end AddressSpace

namespace Object

open AddressSpace

variable {o : Object} {cfg : LinkConfig} {l : Linked} {blank loaded : AddressSpace}

-- An object that was placed: memory with blank pages for its image, memory with its image loaded
-- into them, and what came of it.
structure Placed (o : Object) (cfg : LinkConfig) (blank loaded : AddressSpace) (l : Linked) :
    Prop where
  allocate    : empty.allocate o.base (max o.image.size 1) cfg.textAccess = .ok blank
  poke        : blank.poke o.base o.image.toList = .ok loaded
  stack       : loaded.allocateStack cfg.stackSize = .ok (l.stackTop, l.space)
  base        : l.base = o.base
  imageLen    : l.imageLen = o.image.size
  entry       : l.entry = (o.symbols.address? cfg.entrySymbol).getD o.base
  symbols     : l.symbols = o.symbols
  diagnostics : l.diagnostics =
    if cfg.base = o.base then o.diagnostics else o.diagnostics.push (.baseMismatch o.base cfg.base)

-- What is too long for 32 bits is not mapped.
theorem size_lt_of_allocate {base : Word} {n : Nat} {access : Access}
    (h : empty.allocate base (max n 1) access = .ok blank) : ¬n ≥ addressLimit := by
  have hrounds := (free_of_allocate h).rounds
  have hle := le_pageCeil (max n 1)
  omega

theorem exists_placed (h : o.place cfg = .ok l) : ∃ blank loaded, o.Placed cfg blank loaded l := by
  simp only [place, guard_eq_ok_iff] at h
  have ⟨_, h⟩ := h
  have ⟨blank, hallocate, h⟩ := exists_of_bind_eq_ok h
  have ⟨loaded, hpoke, h⟩ := exists_of_bind_eq_ok h
  have ⟨⟨top, space⟩, hstack, h⟩ := exists_of_bind_eq_ok h
  cases h
  exact ⟨blank, loaded, hallocate, hpoke, hstack, rfl, rfl, rfl, rfl, rfl⟩

theorem exists_place {space : AddressSpace} {top : Option Word}
    (hallocate : empty.allocate o.base (max o.image.size 1) cfg.textAccess = .ok blank)
    (hpoke : blank.poke o.base o.image.toList = .ok loaded)
    (hstack : loaded.allocateStack cfg.stackSize = .ok (top, space)) :
    ∃ l, o.place cfg = .ok l := by
  simp only [place, size_lt_of_allocate hallocate, if_false, hallocate, hpoke, hstack, bind,
    Except.bind]
  exact ⟨_, rfl⟩

theorem exists_link_of_place (h : o.place cfg = .ok l) : ∃ l, o.link cfg = .ok l := by
  rw [link, h]
  exact ⟨_, rfl⟩

namespace Placed

variable (h : o.Placed cfg blank loaded l)
include h

theorem place_eq : o.place cfg = .ok l := by
  obtain ⟨space, base, imageLen, entry, stackTop, symbols, diagnostics⟩ := l
  obtain ⟨hallocate, hpoke, hstack, rfl, rfl, rfl, rfl, rfl⟩ := h
  simp only [place, size_lt_of_allocate hallocate, if_false, hallocate, hpoke, hstack, bind,
    Except.bind]
  rfl

theorem wellFormed_blank : blank.WellFormed :=
  wellFormed_allocate wellFormed_empty h.allocate

theorem alike_loaded : blank.Alike (fun _ => False) loaded :=
  alike_write h.poke

theorem wellFormed_loaded : loaded.WellFormed :=
  h.wellFormed_blank.alike h.alike_loaded

theorem wellFormed_space : l.space.WellFormed :=
  wellFormed_allocateStack h.wellFormed_loaded h.stack

end Placed

theorem wellFormed_of_place (h : o.place cfg = .ok l) : l.space.WellFormed := by
  obtain ⟨_, _, hp⟩ := exists_placed h
  exact hp.wellFormed_space

theorem length_image_le (o : Object) :
    o.image.toList.length ≤ pageCeil (max o.image.size 1) ∧ 0 < pageCeil (max o.image.size 1) := by
  have := le_pageCeil (max o.image.size 1)
  rw [Array.length_toList]
  omega

-- The zeros that follow an image up to the end of its last page.
def padding (o : Object) : List Byte :=
  List.replicate (pageCeil (max o.image.size 1) - o.image.toList.length) 0

theorem image_padding_ne_nil (o : Object) : o.image.toList ++ o.padding ≠ [] := by
  have := o.length_image_le
  rw [← List.length_pos_iff]
  simp only [padding, List.length_append, List.length_replicate]
  omega

theorem place_eq_ok (h : o.place cfg = .ok l) :
    l.space.Maps o.base cfg.textAccess (o.image.toList ++ o.padding) ∧
      l.base = o.base ∧ l.imageLen = o.image.size ∧ l.symbols = o.symbols ∧
      (l.diagnostics = #[] ↔ o.diagnostics = #[] ∧ cfg.base = o.base) := by
  obtain ⟨blank, loaded, hp⟩ := exists_placed h
  refine ⟨?_, hp.base, hp.imageLen, hp.symbols, ?_⟩
  case refine_1 =>
    have ⟨hlen, hpos⟩ := o.length_image_le
    have ⟨_, hpoke, hm⟩ := (maps_allocate hp.allocate).poke_zeros hpos hlen
    cases hp.poke.symm.trans hpoke
    exact hm.allocateStack o.image_padding_ne_nil hp.stack
  case refine_2 =>
    rw [hp.diagnostics]
    split
    case isTrue hb => simp [hb]
    case isFalse hb => simp [hb]

-- An object that begins on a page and ends a page below the end of memory can always be linked, if
-- there is no stack to find a place for.
theorem exists_link (hbase : o.base.toNat % pageSize = 0)
    (hfit : o.base.toNat + max o.image.size 1 + pageSize ≤ addressLimit)
    (hstack : cfg.stackSize = 0) : ∃ l, o.link cfg = .ok l := by
  have ⟨blank, hallocate⟩ := exists_allocate cfg.textAccess hbase (by omega) hfit
  have ⟨hlen, hpos⟩ := o.length_image_le
  have ⟨_, hpoke, _⟩ := (maps_allocate hallocate).poke_zeros hpos hlen
  have ⟨_, hplace⟩ := exists_place hallocate hpoke (if_pos hstack)
  exact exists_link_of_place hplace

end Object

end RV32IM
