import RV32IM.Proofs.Machine.Boot
import RV32IM.Proofs.Memory.Gap

-- The stack that a program starts with. It is a region of its own, apart from the image and a page
-- past whatever lies below it, and all of it can be used, also if its top is the end of memory.

namespace RV32IM

namespace AddressSpace

variable {s s' : AddressSpace} {base : Word} {len size : Nat} {access : Access} {bs : List Byte}
  {top : Option Word}

theorem exists_allocateStack (hs : s.WellFormed) (h : ∃ b, s.Gap (pageCeil size) b) :
    ∃ top s', s.allocateStack size = .ok (top, s') := by
  by_cases hz : size = 0
  case pos => exact ⟨_, _, if_pos hz⟩
  case neg =>
    have ha := allocateAnywhere_of_isLeast hs (Nat.pos_of_ne_zero hz) (isLeast_firstGap hs h)
      .readWrite
    rw [allocateStack, if_neg hz, ha]
    exact ⟨_, _, rfl⟩

-- An image alone in memory.
theorem regions_of_poke (ha : empty.allocate base len access = .ok s)
    (hp : s.poke base bs = .ok s') :
    ∃ r, s'.regions = [r] ∧ r.base = base ∧ r.bytes.size = pageCeil len := by
  rw [allocate_of_free (free_of_allocate ha)] at ha
  cases ha
  have hk := alike_write hp
  obtain ⟨es⟩ := s'
  rcases hk with _ | ⟨⟨_, hr⟩, ⟨⟩⟩
  exact ⟨_, rfl, hr.base, by simpa using hr.size⟩

theorem Alike.exists_mem {on : Access → Prop} {r : Region} (h : s.Alike on s')
    (hr : r ∈ s.regions) : ∃ r' ∈ s'.regions, r.Alike on r' := by
  have hrs := h.regions
  clear h
  generalize s.regions = rs, s'.regions = rs' at hr hrs
  induction hrs
  case nil => cases hr
  case cons hq _ ih =>
    cases hr
    case head => exact ⟨_, List.mem_cons_self, hq⟩
    case tail hr =>
      obtain ⟨r', hr', ha⟩ := ih hr
      exact ⟨r', List.mem_cons_of_mem _ hr', ha⟩

end AddressSpace

-- Where a linked program has its image and its stack.
structure Linked.Stacked (l : Linked) (size : Nat) (image stack : Region) : Prop where
  mem_image : image ∈ l.space.regions
  base      : image.base = l.base
  holds     : l.imageLen ≤ image.bytes.size
  mem_stack : stack ∈ l.space.regions
  access    : stack.access = .readWrite
  whole     : stack.bytes.size = pageCeil size
  top       : l.stackTop = some (stack.base + BitVec.ofNat 32 size)
  above     : pageSize ≤ stack.base.toNat
  apart     : stack.stop ≤ image.base.toNat ∨ image.stop + pageSize ≤ stack.base.toNat

namespace Linked

variable {l l' : Linked} {size : Nat} {image stack : Region}

theorem Stacked.alike {on : Access → Prop} (h : l.Stacked size image stack)
    (hk : l.space.Alike on l'.space) (hbase : l'.base = l.base) (hlen : l'.imageLen = l.imageLen)
    (htop : l'.stackTop = l.stackTop) : ∃ image stack, l'.Stacked size image stack := by
  have ⟨image', himage, hi⟩ := hk.exists_mem h.mem_image
  have ⟨stack', hstack, ht⟩ := hk.exists_mem h.mem_stack
  refine ⟨image', stack', ?_⟩
  constructor
  case mem_image => exact himage
  case base => rw [hi.base, h.base, hbase]
  case holds =>
    rw [hi.size, hlen]
    exact h.holds
  case mem_stack => exact hstack
  case access => rw [ht.access, h.access]
  case whole => rw [ht.size, h.whole]
  case top => rw [htop, ht.base, h.top]
  case above =>
    rw [ht.base]
    exact h.above
  case apart =>
    simp only [Region.stop, hi.base, hi.size, ht.base, ht.size]
    exact h.apart

theorem Stacked.size_lt (h : l.Stacked size image stack) (hs : l.space.WellFormed) :
    size < addressLimit := by
  have habove := h.above
  have hlimit := (hs.paged stack h.mem_stack).limit
  have hle := le_pageCeil size
  simp only [Region.stop, h.whole] at hlimit
  simp only [pageSize] at habove
  omega

-- As many bytes below the top as the stack has are in its region.
theorem Stacked.covers (h : l.Stacked size image stack) (hs : l.space.WellFormed) {k n : Nat}
    (hn : 0 < n) (hk : n ≤ k) (hsize : k ≤ size) :
    stack.Covers (stack.base + BitVec.ofNat 32 size - BitVec.ofNat 32 k) n := by
  have hlimit := (hs.paged stack h.mem_stack).limit
  have hle := le_pageCeil size
  simp only [Region.stop, h.whole] at hlimit
  have haddr : stack.base + BitVec.ofNat 32 size - BitVec.ofNat 32 k =
      stack.base + BitVec.ofNat 32 (size - k) := by
    rw [← Nat.sub_add_cancel hsize, BitVec.ofNat_add, ← BitVec.add_assoc, BitVec.add_sub_cancel,
      Nat.sub_add_cancel hsize]
  have htoNat : (stack.base + BitVec.ofNat 32 (size - k)).toNat = stack.base.toNat + (size - k) :=
    Word.toNat_add_ofNat (by omega)
  rw [haddr]
  refine ⟨?_, ?_⟩
  case refine_1 =>
    rw [BitVec.le_def]
    omega
  case refine_2 =>
    rw [htoNat, Region.stop, h.whole]
    omega

end Linked

namespace Object

variable {o : Object} {cfg : LinkConfig} {l : Linked}

theorem stacked_of_place (h : o.place cfg = .ok l) (hz : cfg.stackSize ≠ 0) :
    ∃ image stack, l.Stacked cfg.stackSize image stack := by
  obtain ⟨blank, loaded, hp⟩ := exists_placed h
  have hs := hp.wellFormed_loaded
  have ⟨image, hregions, hbase, hsize⟩ := AddressSpace.regions_of_poke hp.allocate hp.poke
  obtain ⟨bottom, htop, hgap, hkey, hspace⟩ := AddressSpace.gap_of_allocateStack hs hz hp.stack
  have himage : image ∈ loaded.regions := hregions ▸ List.mem_singleton_self image
  refine ⟨image, ⟨bottom, .readWrite, Array.replicate (pageCeil cfg.stackSize) 0⟩, ?_⟩
  constructor
  case mem_image => exact hspace ▸ (AddressSpace.mem_insert hkey).mpr (.inr himage)
  case base => exact hbase.trans hp.base.symm
  case holds =>
    rw [hsize, hp.imageLen]
    exact Nat.le_trans (Nat.le_max_left _ _) (le_pageCeil _)
  case mem_stack => exact hspace ▸ (AddressSpace.mem_insert hkey).mpr (.inl rfl)
  case access => rfl
  case whole => exact Array.size_replicate
  case top => exact htop
  case above => exact hgap.above
  case apart =>
    have hpos := (hs.paged image himage).nonempty
    rcases hgap.apart image himage with hle | hle
    case inl =>
      refine .inr (hgap.guarded image himage ?_)
      simp only [Region.stop] at hle
      omega
    case inr =>
      refine .inl ?_
      rw [Region.stop, Array.size_replicate]
      exact hle

theorem stacked_of_link (h : o.link cfg = .ok l) (hz : cfg.stackSize ≠ 0) :
    l.space.WellFormed ∧ l.base = o.base ∧ ∃ image stack, l.Stacked cfg.stackSize image stack := by
  have ⟨l₀, hplace, hfold⟩ := exists_of_map_eq_ok h
  have hs := wellFormed_of_place hplace
  have ⟨_, hbase, _⟩ := place_eq_ok hplace
  have ⟨image, stack, h₀⟩ := stacked_of_place hplace hz
  have hk := Linked.keeps_foldl o.relocations o.relocations.toList l₀
  have ⟨_, htop⟩ := l₀.foldl_relocate_starts o.relocations o.relocations.toList
  have hp := Linked.patched_foldl hs o.relocations o.relocations.toList
  rw [Array.foldl_toList, hfold] at hk htop hp
  exact ⟨hs.alike hp.alike, hk.base.trans hbase, h₀.alike hp.alike hk.base hk.imageLen htop⟩

-- If there is room above the image for a stack, and a page between, then the object can be linked.
theorem exists_link_with_stack (hbase : o.base.toNat % pageSize = 0)
    (hfit : o.base.toNat + pageCeil (max o.image.size 1) + pageSize + pageCeil cfg.stackSize ≤
      addressLimit) : ∃ l, o.link cfg = .ok l := by
  have hle := le_pageCeil (max o.image.size 1)
  obtain ⟨hlen, hpos⟩ := o.length_image_le
  obtain ⟨s₁, halloc⟩ := AddressSpace.exists_allocate cfg.textAccess hbase
    (show 0 < max o.image.size 1 by omega) (by omega)
  obtain ⟨s₂, hpoke, _⟩ := (AddressSpace.maps_allocate halloc).poke_zeros hpos hlen
  have hs₁ := AddressSpace.wellFormed_allocate AddressSpace.wellFormed_empty halloc
  have hs₂ := hs₁.alike (AddressSpace.alike_write hpoke)
  obtain ⟨image, hregions, himage, hsize⟩ := AddressSpace.regions_of_poke halloc hpoke
  have hstop : image.stop = o.base.toNat + pageCeil (max o.image.size 1) := by
    rw [Region.stop, himage, hsize]
  have hgap : s₂.Gap (pageCeil cfg.stackSize) (image.stop + pageSize) := by
    rw [hstop]
    constructor
    case aligned =>
      simp only [pageCeil, pageSize] at *
      omega
    case above => omega
    case limit => exact hfit
    case apart =>
      rw [hregions]
      exact List.forall_mem_singleton.mpr (.inl (by omega))
    case guarded =>
      rw [hregions]
      exact List.forall_mem_singleton.mpr fun _ => by omega
  obtain ⟨top, s₃, hstack⟩ := AddressSpace.exists_allocateStack hs₂ ⟨_, hgap⟩
  obtain ⟨_, hplace⟩ := exists_place halloc hpoke hstack
  exact exists_link_of_place hplace

end Object

-- The stack pointer of a linked program begins at the top of its stack. From there down there are
-- as many bytes as were asked for, which can be loaded and stored one by one or several at a time,
-- and none of them belongs to the image.
theorem Machine.ofLinked_stack {o : Object} {cfg : LinkConfig} {l : Linked}
    (hl : o.link cfg = .ok l) (hz : 0 < cfg.stackSize) {hart : HartConfig}
    (hsp : hart.initialSp = none) :
    let m := ofLinked l hart
    let top := m.hart.regs.get .sp
    l.stackTop = some top ∧ l.base = o.base ∧
      ∃ image stack, l.Stacked cfg.stackSize image stack ∧
        ∀ k n, 0 < n → n ≤ k → k ≤ cfg.stackSize →
          m.space.locate? (top - BitVec.ofNat 32 k) n = some stack ∧
          (∃ bs, m.space.load (top - BitVec.ofNat 32 k) n = .ok bs) ∧
          ∀ bs, bs.length = n → ∃ s, m.space.store (top - BitVec.ofNat 32 k) bs = .ok s := by
  intro m top
  have ⟨hs, hbase, image, stack, h⟩ := Object.stacked_of_link hl (Nat.ne_of_gt hz)
  have htop : top = stack.base + BitVec.ofNat 32 cfg.stackSize := by
    simp only [top, m, ofLinked, start, Hart.start, hsp, h.top]
    exact RegFile.get_set_self (by decide) _
  refine ⟨htop ▸ h.top, hbase, image, stack, h, fun k n hn hk hsize => ?_⟩
  have hc := h.covers hs hn hk hsize
  rw [← htop] at hc
  have hcheck {required : Access} (ha : Access.readWrite.allows required) :
      m.space.check (top - BitVec.ofNat 32 k) n required = .ok stack :=
    (AddressSpace.check_eq_ok_iff_mem hs hn).mpr ⟨h.mem_stack, hc, h.access ▸ ha⟩
  have hlt : n < addressLimit := by
    have := h.size_lt hs
    omega
  refine ⟨(AddressSpace.locate?_eq_some_iff hs hn).mpr ⟨h.mem_stack, hc⟩, ?_, fun bs hbs => ?_⟩
  case refine_1 => exact ⟨_, AddressSpace.read_of_check hlt (hcheck (by decide))⟩
  case refine_2 =>
    subst hbs
    exact ⟨_, AddressSpace.write_of_check hlt (hcheck (by decide))⟩

-- A program in the page at zero, with all the memory that is left above it for a stack.
def crowded : Object := .ofStmts 0 [.nop]

theorem Machine.ofLinked_stack_crowded :
    ∃ l, crowded.link { stackSize := 0xFFFFE000 } = .ok l ∧
      (ofLinked l {}).hart.regs.get .sp = 0 ∧
      (∃ bs, (ofLinked l {}).space.load 0xFFFFFFFC 4 = .ok bs) ∧
      ∃ s, (ofLinked l {}).space.store 0x2000 [1] = .ok s := by
  obtain ⟨l, hl⟩ : ∃ l, crowded.link { stackSize := 0xFFFFE000 } = .ok l :=
    Object.exists_link_with_stack rfl (by decide +kernel)
  have hsp : ({} : HartConfig).initialSp = none := rfl
  obtain ⟨htop, hbase, image, stack, h, huse⟩ := ofLinked_stack hl (by decide) hsp
  obtain ⟨hs, _⟩ := Object.stacked_of_link hl (by decide)
  have hstack : stack.base.toNat = 0x2000 := by
    have himage := hs.paged image h.mem_image
    have hpos := himage.nonempty
    have hpages := himage.whole
    have hlimit := (hs.paged stack h.mem_stack).limit
    have habove := h.above
    have hapart := h.apart
    have hsize : pageCeil 0xFFFFE000 = 0xFFFFE000 := by decide
    have hzero : image.base.toNat = 0 := by
      rw [h.base, hbase]
      rfl
    simp only [Region.stop, h.whole, hsize, hzero, pageSize, addressLimit_eq] at *
    omega
  have hsp : (ofLinked l {}).hart.regs.get .sp = 0 := by
    rw [h.top, Option.some_inj] at htop
    rw [← htop, ← BitVec.toNat_inj, BitVec.toNat_add, hstack]
    rfl
  rw [hsp] at huse
  obtain ⟨_, hload, _⟩ := huse 4 4 (by decide) (by decide) (by decide)
  obtain ⟨_, _, hstore⟩ := huse 0xFFFFE000 1 (by decide) (by decide) (by decide)
  exact ⟨l, hl, hsp, hload, hstore [1] rfl⟩

end RV32IM
