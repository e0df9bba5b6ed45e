import RV32IM.Proofs.Elf.Load
import RV32IM.Proofs.Memory.Mapping

-- The regions of an image. Each segment takes up the pages that it has an address in, and loading
-- maps one region there, with the data where the segment says and zeros around it. An image is
-- loaded if there is room for the pages of all of its segments, and otherwise up to the first for
-- whose pages there is none.

namespace RV32IM

namespace AddressSpace

-- A region that holds an address above all others that begin at or below it is the one overwritten.
theorem overwrite_insert {s : AddressSpace} {key addr : Word} (q : Region) (bs : List Byte)
    (hq : key ≤ addr) (h : ∀ e ∈ s.entries, e.1 ≤ addr → e.1 < key) :
    (s.insert key q).overwrite addr bs = s.insert key (q.overwrite addr bs) := by
  obtain ⟨es⟩ := s
  simp only [insert, overwrite, mk.injEq] at h ⊢
  induction es
  case nil => simp [insert.go, overwrite.go, hq]
  case cons e es ih =>
    obtain ⟨he, hes⟩ := List.forall_mem_cons.mp h
    unfold insert.go
    split
    case isTrue hlt => simp [overwrite.go, hq]
    case isFalse hlt =>
      have hea : ¬e.1 ≤ addr := fun hea => hlt (he hea)
      have hne : e.1 ≠ key := fun heq => hea (heq ▸ hq)
      simp [overwrite.go, hea, hne, ih hes]

end AddressSpace

namespace Elf

namespace Segment

-- Where the first page of a segment begins.
def start (s : Segment) : Nat :=
  s.vaddr.toNat / pageSize * pageSize

-- Where its last page ends. A segment without a byte takes up a page, too.
def stop (s : Segment) : Nat :=
  pageCeil (s.vaddr.toNat + max (max s.memSize s.data.length) 1)

-- How many bytes a region for a segment is asked to hold.
def room (s : Segment) : Nat :=
  max (max s.memSize s.data.length) 1 + s.vaddr.toNat % pageSize

-- The zeros in the pages of a segment below its data and above it.
def below (s : Segment) : List Byte :=
  List.replicate (s.vaddr.toNat - s.start) 0

def above (s : Segment) : List Byte :=
  List.replicate (s.stop - (s.vaddr.toNat + s.data.length)) 0

def region (s : Segment) : Region where
  base   := Image.regionBase s
  access := s.access
  bytes  := (s.below ++ s.data ++ s.above).toArray

-- The region of a segment before its data is there.
def blank (s : Segment) : Region where
  base   := Image.regionBase s
  access := s.access
  bytes  := Array.replicate (pageCeil s.room) 0

variable (s : Segment)

theorem start_le : s.start ≤ s.vaddr.toNat := by
  simp only [start, pageSize]
  omega

theorem vaddr_lt_stop : s.vaddr.toNat < s.stop := by
  simp only [stop, pageCeil, pageSize]
  omega

theorem add_length_le_stop : s.vaddr.toNat + s.data.length ≤ s.stop := by
  simp only [stop, pageCeil, pageSize]
  omega

theorem start_add_pageCeil_room : s.start + pageCeil s.room = s.stop := by
  simp only [start, stop, room, pageCeil, pageSize]
  omega

@[simp]
theorem toNat_regionBase : (Image.regionBase s).toNat = s.start := by
  simp only [Image.regionBase, start, pageSize, BitVec.toNat_ofNat]
  omega

theorem stop_region : s.region.stop = s.stop := by
  have hstart := s.start_le
  have hstop := s.add_length_le_stop
  simp only [region, below, above, Region.stop, List.size_toArray, List.length_append,
    List.length_replicate, toNat_regionBase]
  omega

theorem overwrite_blank : s.blank.overwrite s.vaddr s.data = s.region := by
  have hstart := s.start_le
  have hstop := s.add_length_le_stop
  have hroom := s.start_add_pageCeil_room
  have hsize : s.vaddr.toNat - s.start + s.data.length +
      (s.stop - (s.vaddr.toNat + s.data.length)) = pageCeil s.room := by omega
  have hzeros : s.blank.bytes =
      (s.below ++ List.replicate s.data.length 0 ++ s.above).toArray := by
    rw [below, above, List.replicate_append_replicate, List.replicate_append_replicate, hsize,
      List.toArray_replicate, blank]
  have hdata : overwriteFrom (s.below ++ List.replicate s.data.length 0 ++ s.above).toArray
      s.below.length s.data = (s.below ++ s.data ++ s.above).toArray :=
    overwriteFrom_append (List.length_replicate ..).symm
  rw [below, List.length_replicate] at hdata
  rw [Region.overwrite, hzeros, Region.offset, blank, toNat_regionBase, below, hdata]
  rfl

theorem covers_blank {n : Nat} (h : s.vaddr.toNat + n ≤ s.stop) : s.blank.Covers s.vaddr n := by
  refine ⟨?_, ?_⟩
  case refine_1 => rw [BitVec.le_def, blank, toNat_regionBase]; exact s.start_le
  case refine_2 =>
    rwa [Region.stop, blank, toNat_regionBase, Array.size_replicate, start_add_pageCeil_room]

end Segment

namespace Image

variable {space space' : AddressSpace} {s t : Segment} {ss : List Segment}

-- Whether the pages of a segment are free.
structure Room (space : AddressSpace) (s : Segment) : Prop where
  short : s.stop - s.start < addressLimit
  limit : s.stop ≤ addressLimit
  apart : ∀ r ∈ space.regions, r.stop ≤ s.start ∨ s.stop ≤ r.base.toNat

-- Whether the pages of segments are free and no two of them have one in common.
structure Mappable (space : AddressSpace) (ss : List Segment) : Prop where
  room  : ∀ s ∈ ss, Room space s
  apart : ss.Pairwise fun s t => s.stop ≤ t.start ∨ t.stop ≤ s.start

-- Whether memory is as it was but for the regions of segments.
structure Gains (space space' : AddressSpace) (ss : List Segment) : Prop where
  wellFormed : space'.WellFormed
  regions    : space'.regions.Perm (space.regions ++ ss.map Segment.region)

section Segment

theorem room_iff_free : Room space s ↔ space.Free (regionBase s) s.room := by
  have hroom := s.start_add_pageCeil_room
  constructor
  case mp =>
    intro h
    refine ⟨?_, ?_, ?_, ?_, ?_⟩
    case refine_1 => simp only [Segment.room]; omega
    case refine_2 => rw [s.toNat_regionBase, Segment.start, Nat.mul_mod_left]
    case refine_3 => have := h.short; omega
    case refine_4 => rw [s.toNat_regionBase, hroom]; exact h.limit
    case refine_5 => rw [s.toNat_regionBase, hroom]; exact h.apart
  case mpr =>
    intro h
    have hlimit := h.limit
    have hapart := h.apart
    rw [s.toNat_regionBase, hroom] at hlimit hapart
    exact ⟨by have := h.rounds; omega, hlimit, hapart⟩

theorem exists_allocate_of_loadSegment (h : loadSegment space s = .ok space') :
    ∃ space₁, space.allocate (regionBase s) s.room s.access = .ok space₁ := by
  simp only [loadSegment, guard_eq_ok_iff] at h
  obtain ⟨space₁, ha, _⟩ := exists_of_bind_eq_ok h.right
  exact ⟨space₁, ha⟩

-- The data of a segment lies in the region that was mapped for it, so there is no second reason to
-- refuse a segment.
theorem check_of_allocate (hs : space.WellFormed)
    (h : space.allocate (regionBase s) s.room s.access = .ok space') :
    space'.check s.vaddr s.data.length .none = .ok s.blank := by
  have hs' := AddressSpace.wellFormed_allocate hs h
  have hf := AddressSpace.free_of_allocate h
  have hk := hf.not_mem_keys hs
  rw [AddressSpace.allocate_of_free hf] at h
  cases h
  have hmem : s.blank ∈ (space.insert (regionBase s) s.blank).regions :=
    (AddressSpace.mem_insert hk).mpr (.inl rfl)
  have hl := AddressSpace.lookup_of_covers hs' hmem Nat.one_pos (s.covers_blank s.vaddr_lt_stop)
  exact AddressSpace.check_eq_ok_iff.mpr
    ⟨hl, s.covers_blank s.add_length_le_stop, Access.allows_none _⟩

theorem inside_of_allocate (hs : space.WellFormed)
    (h : space.allocate (regionBase s) s.room s.access = .ok space') :
    s.room < addressLimit ∧ s.start ≤ s.vaddr.toNat ∧
      ∃ r, space'.check s.vaddr s.data.length .none = .ok r ∧
        r.offset s.vaddr + s.data.length ≤ r.bytes.size := by
  have hrounds := (AddressSpace.free_of_allocate h).rounds
  have ⟨hle, hlt⟩ := s.covers_blank s.add_length_le_stop
  refine ⟨Nat.lt_of_le_of_lt (le_pageCeil s.room) hrounds, s.start_le, _,
    check_of_allocate hs h, ?_⟩
  rw [BitVec.le_def] at hle
  simp only [Region.stop] at hlt
  simp only [Region.offset]
  omega

theorem loadSegment_of_room (hs : space.WellFormed) (h : Room space s) :
    loadSegment space s = .ok (space.insert (regionBase s) s.region) := by
  have hf := room_iff_free.mp h
  have halloc := AddressSpace.allocate_of_free hf s.access
  have hcheck := check_of_allocate hs halloc
  have hlt : ¬s.room ≥ addressLimit := by
    have := le_pageCeil s.room
    have := hf.rounds
    omega
  have hbelow : ∀ e ∈ space.entries, e.1 ≤ s.vaddr → e.1 < regionBase s := by
    intro e he hle
    have hm : e.2 ∈ space.regions := List.mem_map_of_mem he
    have hn := (hs.paged _ hm).nonempty
    have hstop := s.vaddr_lt_stop
    have hapart := h.apart _ hm
    rw [hs.keyed e he, BitVec.le_def] at hle
    rw [hs.keyed e he, BitVec.lt_def, s.toNat_regionBase]
    simp only [Region.stop] at hapart
    omega
  have hpoke : loadSegment space s = (space.allocate (regionBase s) s.room s.access).bind
      fun space => space.poke s.vaddr s.data := if_neg hlt
  have hlen : s.data.length < addressLimit := by
    have hle : s.data.length ≤ s.room := by
      simp only [Segment.room]
      omega
    omega
  have hle := (s.covers_blank (n := 1) s.vaddr_lt_stop).left
  have hover := AddressSpace.overwrite_insert s.blank s.data hle hbelow
  rw [s.overwrite_blank] at hover
  rw [hpoke, halloc, Except.bind, AddressSpace.poke, AddressSpace.write_of_check hlen hcheck]
  exact congrArg Except.ok hover

theorem exists_error_of_not_room (h : ¬Room space s) : ∃ e, loadSegment space s = .error e := by
  cases hl : loadSegment space s
  case error e => exact ⟨e, rfl⟩
  case ok space' =>
    have ⟨_, ha⟩ := exists_allocate_of_loadSegment hl
    exact absurd (room_iff_free.mpr (AddressSpace.free_of_allocate ha)) h

theorem Room.not_mem_keys (h : Room space s) (hs : space.WellFormed) : regionBase s ∉ space.keys :=
  (room_iff_free.mp h).not_mem_keys hs

theorem room_insert (hk : regionBase s ∉ space.keys) :
    Room (space.insert (regionBase s) s.region) t ↔
      Room space t ∧ (s.stop ≤ t.start ∨ t.stop ≤ s.start) := by
  have hbase : s.region.base.toNat = s.start := s.toNat_regionBase
  have hmem {r : Region} := AddressSpace.mem_insert (q := s.region) (r := r) hk
  constructor
  case mp =>
    intro h
    have hs := h.apart s.region (hmem.mpr (.inl rfl))
    rw [s.stop_region, hbase] at hs
    exact ⟨⟨h.short, h.limit, fun r hr => h.apart r (hmem.mpr (.inr hr))⟩, hs⟩
  case mpr =>
    intro ⟨h, hs⟩
    refine ⟨h.short, h.limit, fun r hr => ?_⟩
    cases hmem.mp hr
    case inl hr => rwa [hr, s.stop_region, hbase]
    case inr hr => exact h.apart r hr

theorem gains_of_room (hs : space.WellFormed) (h : Room space s) :
    Gains space (space.insert (regionBase s) s.region) [s] where
  wellFormed := (loaded_of_loadSegment hs (loadSegment_of_room hs h)).wellFormed
  regions    := (AddressSpace.perm_insert (h.not_mem_keys hs) s.region).trans
    (List.perm_append_singleton _ _).symm

end Segment

section Segments

theorem mappable_nil : Mappable space [] :=
  ⟨nofun, .nil⟩

-- Segments can be mapped if the first can, and the others beside it.
theorem mappable_cons (hspace : space.WellFormed) :
    Mappable space (s :: ss) ↔
      Room space s ∧ Mappable (space.insert (regionBase s) s.region) ss := by
  constructor
  case mp =>
    intro ⟨hr, ha⟩
    have ⟨hs, hss⟩ := List.forall_mem_cons.mp hr
    have ⟨has, hass⟩ := List.pairwise_cons.mp ha
    have hk := hs.not_mem_keys hspace
    exact ⟨hs, fun t ht => (room_insert hk).mpr ⟨hss t ht, has t ht⟩, hass⟩
  case mpr =>
    intro ⟨hs, hr, ha⟩
    have hroom t (ht : t ∈ ss) := (room_insert (hs.not_mem_keys hspace)).mp (hr t ht)
    exact ⟨List.forall_mem_cons.mpr ⟨hs, fun t ht => (hroom t ht).left⟩,
      .cons (fun t ht => (hroom t ht).right) ha⟩

theorem Gains.cons {space₁ : AddressSpace} (h : Gains space space₁ [s])
    (h' : Gains space₁ space' ss) : Gains space space' (s :: ss) where
  wellFormed := h'.wellFormed
  regions := by
    have := h'.regions.trans (h.regions.append_right _)
    rwa [List.append_assoc] at this

theorem loadSegments_of_mappable (hs : space.WellFormed) (h : Mappable space ss) :
    ∃ space', loadSegments space ss = (.ok (), space') ∧ Gains space space' ss := by
  induction ss generalizing space
  case nil => exact ⟨space, rfl, hs, by simp⟩
  case cons s ss ih =>
    have ⟨hroom, hss⟩ := (mappable_cons hs).mp h
    have hg := gains_of_room hs hroom
    have ⟨space', hl, hg'⟩ := ih hg.wellFormed hss
    exact ⟨space', by rw [loadSegments, loadSegment_of_room hs hroom]; exact hl, hg.cons hg'⟩

-- Where loading stops: the segments before can be mapped, and this one cannot be with them.
structure Stops (space space' : AddressSpace) (ss done : List Segment) (s : Segment) : Prop where
  among  : done ++ [s] <+: ss
  before : Mappable space done
  here   : ¬Mappable space (done ++ [s])
  gains  : Gains space space' done

theorem loadSegments_of_not_mappable (hs : space.WellFormed) (h : ¬Mappable space ss) :
    ∃ e space' done s, loadSegments space ss = (.error e, space') ∧
      Stops space space' ss done s := by
  induction ss generalizing space
  case nil => exact absurd mappable_nil h
  case cons s ss ih =>
    by_cases hroom : Room space s
    case neg =>
      have ⟨e, he⟩ := exists_error_of_not_room hroom
      refine ⟨e, space, [], s, by rw [loadSegments, he], ⟨ss, rfl⟩, mappable_nil, ?_, hs, by simp⟩
      exact fun hm => hroom ((mappable_cons hs).mp hm).left
    case pos =>
      have hg := gains_of_room hs hroom
      have ⟨e, space', done, t, hl, hstops⟩ :=
        ih hg.wellFormed fun hss => h ((mappable_cons hs).mpr ⟨hroom, hss⟩)
      refine ⟨e, space', s :: done, t, by rw [loadSegments, loadSegment_of_room hs hroom]; exact hl,
        ?_, (mappable_cons hs).mpr ⟨hroom, hstops.before⟩, ?_, hg.cons hstops.gains⟩
      case refine_1 => exact List.prefix_cons_inj s |>.mpr hstops.among
      case refine_2 => exact fun hm => hstops.here ((mappable_cons hs).mp hm).right

end Segments

-- How an image is loaded into memory.
structure Loads (img : Image) (space : AddressSpace) : Prop where
  granted : (∃ space', img.load space = (.ok (), space')) ↔ Mappable space img.segments
  gains   : ∀ space', img.load space = (.ok (), space') → Gains space space' img.segments
  stops   : ∀ e space', img.load space = (.error e, space') →
    ∃ done s, Stops space space' img.segments done s
  spans   : ∀ s ∈ img.segments, s.region.base.toNat = s.start ∧ s.region.stop = s.stop
  -- Wherever the region of a segment is mapped, the place of the data in it is not out of range.
  inside  : ∀ s ∈ img.segments, ∀ before after : AddressSpace, before.WellFormed →
    before.allocate (regionBase s) s.room s.access = .ok after →
      s.room < addressLimit ∧ s.start ≤ s.vaddr.toNat ∧
        ∃ r, after.check s.vaddr s.data.length .none = .ok r ∧
          r.offset s.vaddr + s.data.length ≤ r.bytes.size

-- An image is loaded exactly if the pages of its segments are free and no two segments share one.
-- It brings one region for each segment, and if it is refused, those of the segments before.
theorem loads_of_wellFormed (img : Image) (hs : space.WellFormed) : img.Loads space := by
  have hspans : ∀ s ∈ img.segments, s.region.base.toNat = s.start ∧ s.region.stop = s.stop :=
    fun s _ => ⟨s.toNat_regionBase, s.stop_region⟩
  by_cases hm : Mappable space img.segments
  case pos =>
    have ⟨space', hl, hg⟩ := loadSegments_of_mappable hs hm
    have hl : img.load space = (.ok (), space') := hl
    exact ⟨by simp [hl, hm], by simpa [hl] using hg, by simp [hl], hspans,
      fun _ _ _ _ => inside_of_allocate⟩
  case neg =>
    have ⟨e, space', done, s, hl, hstops⟩ := loadSegments_of_not_mappable hs hm
    have hl : img.load space = (.error e, space') := hl
    exact ⟨by simp [hl, hm], by simp [hl], by simpa [hl] using ⟨done, s, hstops⟩, hspans,
      fun _ _ _ _ => inside_of_allocate⟩

-- A segment that begins in the middle of a page, one without a byte, and one that ends where memory
-- does.
def looseSegments : Image := ⟨0x1010, [
  ⟨0x1010, [1, 2, 3], 0x1000, .readExecute⟩,
  ⟨0x3000, [], 0, .readWrite⟩,
  ⟨0xFFFFFFFE, [4, 5], 2, .readWrite⟩]⟩

theorem loads_looseSegments :
    AddressSpace.empty.WellFormed ∧ (looseSegments.load .empty).fst = .ok () ∧
      Mappable .empty looseSegments.segments := by
  have hs := AddressSpace.wellFormed_empty
  have hok : (looseSegments.load .empty).fst = .ok () := by decide +kernel
  rcases hl : looseSegments.load .empty with ⟨result, space'⟩
  rw [hl] at hok
  cases hok
  exact ⟨hs, rfl, (loads_of_wellFormed looseSegments hs).granted.mp ⟨space', hl⟩⟩

end Image

end Elf

end RV32IM
