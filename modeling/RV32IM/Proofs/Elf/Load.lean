import RV32IM.Elf.Read
import RV32IM.Proofs.Memory.Bytes

-- Images in memory. A file that is read gives segments that lie in the address space, and once they
-- are all loaded, no two of them have an address in common and each address holds the byte of the
-- segment that it lies in.

namespace RV32IM.Elf

theorem forall_of_mapM_eq_ok {ε α β : Type} {f : α → Except ε β} {P : β → Prop}
    (hf : ∀ a b, f a = .ok b → P b) {as : List α} {bs : List β} (h : as.mapM f = .ok bs) :
    ∀ b ∈ bs, P b := by
  induction as generalizing bs
  case nil =>
    cases h
    nofun
  case cons a as ih =>
    rw [List.mapM_cons] at h
    have ⟨b, hb, h⟩ := exists_of_bind_eq_ok h
    have ⟨bs, hbs, h⟩ := exists_of_bind_eq_ok h
    cases h
    exact List.forall_mem_cons.mpr ⟨hf a b hb, ih hbs⟩

-- Whether a segment has room for its data and ends in the address space.
structure Segment.Fits (s : Segment) : Prop where
  data  : s.data.length ≤ s.memSize
  limit : s.vaddr.toNat + s.memSize ≤ addressLimit

section Read

variable {file : List Byte} {img : Image}

theorem fits_of_readSegment {ph : ProgramHeader} {s : Segment} (h : readSegment file ph = .ok s) :
    s.Fits := by
  simp only [readSegment, guard_eq_ok_iff] at h
  have ⟨hfile, hlimit, _, h⟩ := h
  cases h
  refine ⟨?_, ?_⟩
  case refine_1 =>
    simp only [List.length_take, List.length_drop]
    omega
  case refine_2 =>
    simp only [BitVec.toNat_ofNat, addressLimit_eq] at *
    omega

theorem fits_of_read (h : read file = .ok img) : ∀ s ∈ img.segments, s.Fits := by
  have ⟨_, _, h⟩ := exists_of_bind_eq_ok h
  simp only [guard_eq_ok_iff] at h
  have ⟨_, _, h⟩ := h
  have ⟨_, hs, h⟩ := exists_of_bind_eq_ok h
  cases h
  exact forall_of_mapM_eq_ok (fun _ _ => fits_of_readSegment) hs

theorem isElf_of_read (h : read file = .ok img) : isElf file := by
  have ⟨_, h, _⟩ := exists_of_bind_eq_ok h
  simp only [readHeader, guard_eq_ok_iff] at h
  simpa using h.left

end Read

-- Whether an address is that of a byte of the segment's data.
def Segment.Holds (s : Segment) (a : Word) : Prop :=
  a.Within s.vaddr s.data.length

namespace Image

variable {space space' space'' : AddressSpace} {s : Segment} {ss : List Segment}

-- What memory is once segments have been loaded into it.
structure Loaded (space space' : AddressSpace) (ss : List Segment) : Prop where
  wellFormed : space'.WellFormed
  kept       : ∀ {a b}, space.byte? a = some b → space'.byte? a = some b
  mono       : ∀ {addr n}, space.Mapped addr n → space'.Mapped addr n
  fresh      : ∀ s ∈ ss, ∀ a, s.Holds a → space.byte? a = none
  data       : ∀ s ∈ ss, ∀ a, s.Holds a → space'.byte? a = s.data[a.toNat - s.vaddr.toNat]?
  mapped     : ∀ s ∈ ss, space'.Mapped s.vaddr s.data.length
  apart      : ss.Pairwise fun s t => ∀ a, s.Holds a → ¬t.Holds a

theorem Loaded.eq_of_holds (h : Loaded space space' ss) {s t : Segment} {a : Word} (hs : s ∈ ss)
    (ht : t ∈ ss) (hsa : s.Holds a) (hta : t.Holds a) : s = t := by
  have : Std.Symm fun s t : Segment => ∀ a, s.Holds a → ¬t.Holds a :=
    ⟨fun _ _ h a hta hsa => h a hsa hta⟩
  by_contra hne
  exact h.apart.forall hs ht hne a hsa hta

theorem Loaded.cons (h : Loaded space space' [s]) (h' : Loaded space' space'' ss) :
    Loaded space space'' (s :: ss) := by
  have hfresh := h.fresh s (List.mem_singleton_self s)
  have hdata := h.data s (List.mem_singleton_self s)
  have hsome a (ha : s.Holds a) : ∃ b, space'.byte? a = some b := by
    have hlt : a.toNat - s.vaddr.toNat < s.data.length := by
      have ⟨hle, hlt⟩ := ha
      rw [BitVec.le_def] at hle
      omega
    exact ⟨s.data[a.toNat - s.vaddr.toNat], by rw [hdata a ha, List.getElem?_eq_getElem hlt]⟩
  constructor
  case wellFormed => exact h'.wellFormed
  case kept => exact fun hb => h'.kept (h.kept hb)
  case mono => exact fun hm => h'.mono (h.mono hm)
  case fresh =>
    refine List.forall_mem_cons.mpr ⟨hfresh, fun t ht a ha => ?_⟩
    refine Option.eq_none_iff_forall_ne_some.mpr fun b hb => ?_
    exact absurd (h.kept hb) (by simp [h'.fresh t ht a ha])
  case data =>
    refine List.forall_mem_cons.mpr ⟨fun a ha => ?_, h'.data⟩
    have ⟨b, hb⟩ := hsome a ha
    rw [← hdata a ha, hb, h'.kept hb]
  case mapped =>
    exact List.forall_mem_cons.mpr ⟨h'.mono (h.mapped s (List.mem_singleton_self s)), h'.mapped⟩
  case apart =>
    refine .cons (fun t ht a ha hta => ?_) h'.apart
    have ⟨b, hb⟩ := hsome a ha
    simp [h'.fresh t ht a hta] at hb

-- The region of a segment holds all of its data.
theorem exists_of_loadSegment (h : loadSegment space s = .ok space') :
    ∃ len space₁, (regionBase s).Spans len s.vaddr s.data.length ∧
      space.allocate (regionBase s) len s.access = .ok space₁ ∧
      space₁.poke s.vaddr s.data = .ok space' := by
  simp only [loadSegment, guard_eq_ok_iff] at h
  have ⟨space₁, ha, hp⟩ := exists_of_bind_eq_ok h.right
  refine ⟨_, space₁, ⟨?_, ?_⟩, ha, hp⟩
  all_goals
    simp only [regionBase, pageSize, BitVec.le_def, BitVec.toNat_ofNat]
    omega

theorem loaded_of_loadSegment (hs : space.WellFormed) (h : loadSegment space s = .ok space') :
    Loaded space space' [s] := by
  have ⟨len, space₁, hspan, halloc, hpoke⟩ := exists_of_loadSegment h
  have hf := AddressSpace.free_of_allocate halloc
  have hspan := hspan.mono (le_pageCeil len)
  have ⟨_, hcheck, hspace'⟩ := AddressSpace.check_of_write hpoke
  have hk := AddressSpace.alike_write hpoke
  have hs₁ := AddressSpace.wellFormed_allocate hs halloc
  have hbyte a := hspace' ▸ AddressSpace.byte?_overwrite hs₁ hcheck a
  have hfresh a (ha : s.Holds a) : space.byte? a = none := by
    have ⟨hle, hlt⟩ := hspan.within ha
    exact AddressSpace.byte?_of_free hs hf ⟨hle, hlt⟩
  constructor
  case wellFormed => exact hs₁.alike hk
  case kept =>
    intro a b hb
    have hna : ¬a.Within s.vaddr s.data.length := fun ha => by simp [hfresh a ha] at hb
    rw [hbyte, if_neg hna]
    rw [AddressSpace.allocate_of_free hf] at halloc
    cases halloc
    exact (AddressSpace.byte?_insert hs hs₁ (hf.not_mem_keys hs)).mpr (.inr hb)
  case mono =>
    exact fun hm => hk.mapped_iff.mpr ((AddressSpace.mapped_allocate hs halloc).mpr (.inr hm))
  case fresh => exact List.forall_mem_singleton.mpr hfresh
  case data => exact List.forall_mem_singleton.mpr fun a ha => (hbyte a).trans (if_pos ha)
  case mapped =>
    refine List.forall_mem_singleton.mpr (hk.mapped_iff.mpr ?_)
    exact (AddressSpace.mapped_allocate hs halloc).mpr (.inl hspan)
  case apart => exact List.pairwise_singleton ..

theorem loaded_of_loadSegments (hs : space.WellFormed)
    (h : loadSegments space ss = (.ok (), space')) : Loaded space space' ss := by
  induction ss generalizing space
  case nil =>
    cases h
    exact ⟨hs, id, id, nofun, nofun, nofun, .nil⟩
  case cons s ss ih =>
    unfold loadSegments at h
    split at h
    case h_1 space₁ hseg =>
      have hl := loaded_of_loadSegment hs hseg
      exact hl.cons (ih hl.wellFormed h)
    case h_2 => cases h

end Image

end RV32IM.Elf
