import RV32IM.Proofs.Memory.Pages

-- Mapped byte strings. While one region serves every request within a string of bytes, reading
-- gives back the bytes of the string, overwriting changes those that are named and no others, and
-- mapping a further region changes none.

namespace RV32IM

theorem overwriteFrom_append {a b b' c : List Byte} (h : b'.length = b.length) :
    overwriteFrom (a ++ b ++ c).toArray a.length b' = (a ++ b' ++ c).toArray := by
  apply Array.ext_getElem?
  intro i
  rw [getElem?_overwriteFrom]
  grind

namespace AddressSpace

-- Whether the addresses from `base` on hold a string of bytes, all of them in one region that holds
-- nothing else.
structure Maps (s : AddressSpace) (base : Word) (access : Access) (bs : List Byte) : Prop where
  short : bs.length < addressLimit
  limit : base.toNat + bs.length ≤ addressLimit
  entry : ∀ addr, base ≤ addr → addr.toNat < base.toNat + bs.length →
    s.floor? addr = some (base, ⟨base, access, bs.toArray⟩)

variable {s s' : AddressSpace} {base addr : Word} {access : Access} {bs a b b' c : List Byte}

-- An entry that is looked up for two addresses still is for the one after its region has been
-- overwritten at the other.
theorem floor?_overwrite {key addr' : Word} {r : Region} (h : s.floor? addr = some (key, r))
    (h' : s.floor? addr' = some (key, r)) :
    (s.overwrite addr bs).floor? addr' = some (key, r.overwrite addr bs) := by
  have hle : key ≤ addr := le_of_floor? h
  have hle' : key ≤ addr' := le_of_floor? h'
  obtain ⟨es⟩ := s
  simp only [AddressSpace.overwrite]
  induction es
  case nil => contradiction
  case cons e es ih =>
    rw [floor?_cons] at h h'
    by_cases he : e.1 ≤ addr
    case pos =>
      cases (by simpa [he] using h : e = (key, r))
      simp [overwrite.go, floor?_cons, hle, hle']
    case neg =>
      have hne : e ≠ (key, r) := fun heq => he (heq ▸ hle)
      have he' : ¬e.1 ≤ addr' := fun he' => hne (by simpa [he'] using h')
      rw [if_neg he] at h
      rw [if_neg he'] at h'
      simpa [overwrite.go, floor?_cons, he, he'] using ih h h'

-- An entry that is made in the map does not come before one that is above it.
theorem floor?_insert {key : Word} {q : Region} {e : Word × Region}
    (h : s.floor? addr = some e) (hq : key ≤ addr → key < e.1) :
    (s.insert key q).floor? addr = some e := by
  obtain ⟨es⟩ := s
  simp only [AddressSpace.insert]
  induction es
  case nil => contradiction
  case cons p es ih =>
    rw [floor?_cons] at h
    unfold insert.go
    split
    case isTrue hp =>
      rw [floor?_cons, floor?_cons]
      by_cases hqa : key ≤ addr
      case neg => rwa [if_neg hqa]
      case pos =>
        have hpa : p.1 ≤ addr := BitVec.le_trans (BitVec.le_of_lt hp) hqa
        cases (by simpa [hpa] using h : p = e)
        exact absurd (hq hqa) (BitVec.lt_asymm hp)
    case isFalse =>
    split
    case isTrue hp =>
      rw [floor?_cons]
      by_cases hqa : key ≤ addr
      case neg =>
        rw [if_neg (hp ▸ hqa)] at h
        rwa [if_neg hqa]
      case pos =>
        cases (by simpa [hp, hqa] using h : p = e)
        exact absurd (hq hqa) (hp ▸ BitVec.lt_irrefl _)
    case isFalse =>
      rw [floor?_cons]
      split at h
      case isTrue hp  => rwa [if_pos hp]
      case isFalse hp => rw [if_neg hp, ih h]

namespace Maps

theorem toNat_site (h : s.Maps base access (a ++ b ++ c)) (hbc : b ++ c ≠ []) :
    (base + BitVec.ofNat 32 a.length).toNat = base.toNat + a.length := by
  have hl := h.limit
  have hbc := List.length_pos_iff.mpr hbc
  simp only [addressLimit_eq, List.length_append] at *
  simp only [BitVec.toNat_add, BitVec.toNat_ofNat]
  omega

theorem site_mem (h : s.Maps base access (a ++ b ++ c)) (hbc : b ++ c ≠ []) :
    base ≤ base + BitVec.ofNat 32 a.length ∧
      (base + BitVec.ofNat 32 a.length).toNat < base.toNat + (a ++ b ++ c).length := by
  have hbc' := List.length_pos_iff.mpr hbc
  rw [BitVec.le_def, h.toNat_site hbc]
  simp only [List.length_append] at *
  omega

theorem lookup_eq (h : s.Maps base access bs) (hle : base ≤ addr)
    (hlt : addr.toNat < base.toNat + bs.length) :
    s.lookup addr = some ⟨base, access, bs.toArray⟩ := by
  rw [lookup, h.entry addr hle hlt]
  rfl

theorem locate?_eq (h : s.Maps base access (a ++ b ++ c)) (hbc : b ++ c ≠ []) :
    s.locate? (base + BitVec.ofNat 32 a.length) b.length =
      some ⟨base, access, (a ++ b ++ c).toArray⟩ := by
  have ⟨hle, hlt⟩ := h.site_mem hbc
  rw [locate?, h.lookup_eq hle hlt]
  refine if_pos ⟨hle, ?_⟩
  simp only [h.toNat_site hbc, Region.stop, List.size_toArray, List.length_append]
  omega

theorem check_eq (h : s.Maps base access (a ++ b ++ c)) (hbc : b ++ c ≠ []) {required : Access}
    (hr : access.allows required) :
    s.check (base + BitVec.ofNat 32 a.length) b.length required =
      .ok ⟨base, access, (a ++ b ++ c).toArray⟩ := by
  rw [check, h.locate?_eq hbc]
  exact if_pos hr

theorem read_eq (h : s.Maps base access (a ++ b ++ c)) (hbc : b ++ c ≠ []) {required : Access}
    (hr : access.allows required) :
    s.read (base + BitVec.ofNat 32 a.length) b.length required = .ok b := by
  have hlen := h.short
  simp only [List.length_append] at hlen
  rw [read_of_check (by omega) (h.check_eq hbc hr)]
  simp [Region.read, Region.offset, h.toNat_site hbc]

theorem readWord_eq {w : Word} (h : s.Maps base access (a ++ w.toBytes ++ c)) {required : Access}
    (hr : access.allows required) :
    (s.read (base + BitVec.ofNat 32 a.length) 4 required).map Word.ofBytes = .ok w := by
  have hne : w.toBytes ++ c ≠ [] := by simp [← List.length_eq_zero_iff]
  have hread := h.read_eq hne hr
  rw [Word.length_toBytes] at hread
  rw [hread]
  exact congrArg _ (Word.ofBytes_toBytes w)

theorem byte?_eq {x : Byte} (h : s.Maps base access (a ++ x :: c)) :
    s.byte? (base + BitVec.ofNat 32 a.length) = some x := by
  have h : s.Maps base access (a ++ [x] ++ c) := by simpa using h
  have hne : [x] ++ c ≠ [] := by simp
  have hl : s.regionAt? (base + BitVec.ofNat 32 a.length) = _ := h.locate?_eq hne
  rw [byte?, hl, Option.bind_some, Region.byte?, if_pos (h.site_mem hne).left]
  simp [Region.offset, h.toNat_site hne]

theorem overwrite (h : s.Maps base access (a ++ b ++ c)) (hbc : b ++ c ≠ [])
    (hb : b'.length = b.length) :
    (s.overwrite (base + BitVec.ofNat 32 a.length) b').Maps base access (a ++ b' ++ c) := by
  have hlen : (a ++ b' ++ c).length = (a ++ b ++ c).length := by simp [hb]
  have ⟨hle, hlt⟩ := h.site_mem hbc
  constructor
  case short => exact hlen ▸ h.short
  case limit => exact hlen ▸ h.limit
  case entry =>
    intro addr hle' hlt'
    rw [floor?_overwrite (h.entry _ hle hlt) (h.entry _ hle' (hlen ▸ hlt')), Region.overwrite,
      Region.offset, h.toNat_site hbc, Nat.add_sub_cancel_left,
      overwriteFrom_append hb]

theorem poke_zeros {size : Nat} (h : s.Maps base access (List.replicate size 0)) (hsize : 0 < size)
    (hbs : bs.length ≤ size) :
    ∃ s', s.poke base bs = .ok s' ∧
      s'.Maps base access (bs ++ List.replicate (size - bs.length) 0) := by
  have hzeros : List.replicate size 0 =
      ([] : List Byte) ++ List.replicate bs.length 0 ++ List.replicate (size - bs.length) 0 := by
    rw [List.nil_append, List.replicate_append_replicate, Nat.add_sub_cancel' hbs]
  have hne : List.replicate bs.length 0 ++ List.replicate (size - bs.length) (0 : Byte) ≠ [] := by
    rw [← List.length_pos_iff]
    simp
    omega
  have hlen : bs.length < addressLimit := Nat.lt_of_le_of_lt hbs (by simpa using h.short)
  rw [hzeros] at h
  have hc := h.check_eq hne (Access.allows_none _)
  simp only [List.length_nil, BitVec.add_zero, List.length_replicate] at hc
  refine ⟨s.overwrite base bs, write_of_check hlen hc, ?_⟩
  simpa using h.overwrite hne (List.length_replicate ..).symm

-- A region that has no address in common with the bytes does not come before theirs.
theorem insert (h : s.Maps base access bs) {q : Region}
    (hq : ¬(base.toNat < q.stop ∧ q.base.toNat < base.toNat + bs.length)) (hs : 0 < q.bytes.size) :
    (s.insert q.base q).Maps base access bs where
  short := h.short
  limit := h.limit
  entry addr hle hlt := by
    refine floor?_insert (h.entry addr hle hlt) fun hqa => ?_
    rw [BitVec.le_def] at hqa
    rw [BitVec.lt_def]
    simp only [Region.stop] at hq ⊢
    omega

theorem regionAt?_base (h : s.Maps base access bs) (hbs : bs ≠ []) :
    s.regionAt? base = some ⟨base, access, bs.toArray⟩ := by
  have hlen := List.length_pos_iff.mpr hbs
  rw [regionAt?, locate?, h.lookup_eq (BitVec.le_refl _) (by omega)]
  refine if_pos ⟨BitVec.le_refl _, ?_⟩
  simp only [Region.stop, List.size_toArray]
  omega

theorem mem_regions (h : s.Maps base access bs) (hbs : bs ≠ []) :
    ⟨base, access, bs.toArray⟩ ∈ s.regions := by
  have := List.length_pos_iff.mpr hbs
  exact mem_of_lookup (h.lookup_eq (BitVec.le_refl _) (by omega))

theorem allocate (h : s.Maps base access bs) (hbs : bs ≠ []) {base' : Word} {len : Nat}
    {access' : Access} (hs : s.allocate base' len access' = .ok s') : s'.Maps base access bs := by
  have hf := free_of_allocate hs
  have hn := hf.nonempty
  have hle := le_pageCeil len
  have hdis := hf.apart _ (h.mem_regions hbs)
  rw [allocate_of_free hf] at hs
  cases hs
  refine h.insert (q := ⟨base', access', Array.replicate (pageCeil len) 0⟩) ?hq ?hs
  case hs =>
    rw [Array.size_replicate]
    omega
  case hq =>
    simp only [Region.stop, Array.size_replicate, List.size_toArray] at hdis ⊢
    omega

end Maps

theorem maps_allocate {len : Nat} (h : empty.allocate base len access = .ok s) :
    s.Maps base access (List.replicate (pageCeil len) 0) := by
  have hf := free_of_allocate h
  rw [allocate_of_free hf] at h
  cases h
  constructor
  case short => simpa using hf.rounds
  case limit => simpa using hf.limit
  case entry =>
    intro addr hle _
    simp [floor?, empty, insert, insert.go, hle]

theorem exists_allocate {len : Nat} (access : Access) (hbase : base.toNat % pageSize = 0)
    (hlen : 0 < len) (hfit : base.toNat + len + pageSize ≤ addressLimit) :
    ∃ s, empty.allocate base len access = .ok s := by
  have hf : empty.Free base len := by
    refine ⟨hlen, hbase, ?_, ?_, nofun⟩
    all_goals
      simp only [pageCeil, pageSize] at hfit ⊢
      omega
  exact ⟨_, allocate_of_free hf access⟩

end AddressSpace

end RV32IM
