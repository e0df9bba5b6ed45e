import RV32IM.Proofs.Memory.Requests

-- The gaps between regions. A region that may go anywhere is mapped in the lowest gap that has room
-- for it and a page to spare above the region below, and is refused only if there is no such gap.

namespace RV32IM.AddressSpace

-- Whether `size` bytes can be mapped at an address so that a page stays free below them.
structure Gap (s : AddressSpace) (size base : Nat) : Prop where
  aligned : base % pageSize = 0
  above   : pageSize ≤ base
  limit   : base + size ≤ addressLimit
  apart   : ∀ r ∈ s.regions, r.stop ≤ base ∨ base + size ≤ r.base.toNat
  guarded : ∀ r ∈ s.regions, r.base.toNat < base → r.stop + pageSize ≤ base

variable {s s' : AddressSpace} {size candidate len b : Nat} {access : Access} {rs : List Region}

section FirstGap

theorem le_firstGap (size candidate : Nat) (rs : List Region) :
    candidate ≤ firstGap size candidate rs := by
  induction rs generalizing candidate
  case nil => exact Nat.le_refl _
  case cons r rs ih =>
    unfold firstGap
    split
    case isTrue  => exact Nat.le_refl _
    case isFalse => exact Nat.le_trans (Nat.le_max_left _ _) (ih _)

-- A region that a candidate runs into begins below every place that is left, so no place is passed
-- over when the candidate moves on.
theorem firstGap_le (hn : ∀ r ∈ rs, 0 < r.bytes.size)
    (ha : ∀ r ∈ rs, r.stop ≤ b ∨ b + size ≤ r.base.toNat)
    (hg : ∀ r ∈ rs, r.base.toNat < b → r.stop + pageSize ≤ b) (hc : candidate ≤ b) :
    firstGap size candidate rs ≤ b := by
  induction rs generalizing candidate
  case nil => exact hc
  case cons r rs ih =>
    have ⟨hnr, hnrs⟩ := List.forall_mem_cons.mp hn
    have ⟨har, hars⟩ := List.forall_mem_cons.mp ha
    have ⟨hgr, hgrs⟩ := List.forall_mem_cons.mp hg
    unfold firstGap
    split
    case isTrue  => exact hc
    case isFalse hfit =>
      have hbelow : r.base.toNat < b := by
        simp only [Region.stop] at har
        omega
      exact ih hnrs hars hgrs (Nat.max_le.mpr ⟨hc, hgr hbelow⟩)

theorem firstGap_clears (ho : rs.Pairwise fun r q => r.stop ≤ q.base.toNat) :
    ∀ r ∈ rs, r.stop + pageSize ≤ firstGap size candidate rs ∨
      firstGap size candidate rs + size ≤ r.base.toNat := by
  induction ho generalizing candidate
  case nil => nofun
  case cons r rs hr _ ih =>
    unfold firstGap
    split
    case isTrue hfit =>
      refine List.forall_mem_cons.mpr ⟨.inr hfit, fun q hq => .inr ?_⟩
      have := hr q hq
      simp only [Region.stop] at this
      omega
    case isFalse =>
      have hle := le_firstGap size (max candidate (r.stop + pageSize)) rs
      exact List.forall_mem_cons.mpr ⟨.inl (Nat.le_trans (Nat.le_max_right _ _) hle), ih⟩

theorem firstGap_mod (hp : ∀ r ∈ rs, r.Paged) (hc : candidate % pageSize = 0) :
    firstGap size candidate rs % pageSize = 0 := by
  induction rs generalizing candidate
  case nil => exact hc
  case cons r rs ih =>
    have ⟨hr, hrs⟩ := List.forall_mem_cons.mp hp
    have hstop : (r.stop + pageSize) % pageSize = 0 := by
      rw [Nat.add_mod_right, Region.stop, Nat.add_mod, hr.aligned, hr.whole, Nat.zero_mod]
    unfold firstGap
    split
    case isTrue  => exact hc
    case isFalse =>
      refine ih hrs ?_
      rcases Nat.le_total candidate (r.stop + pageSize) with h | h
      case inl => rw [Nat.max_eq_right h, hstop]
      case inr => rw [Nat.max_eq_left h, hc]

end FirstGap

section WellFormed

variable (hs : s.WellFormed)

include hs

theorem firstGap_le_of_gap (h : s.Gap size b) : firstGap size pageSize s.ascending ≤ b := by
  have hmem {r : Region} (hr : r ∈ s.ascending) : r ∈ s.regions := List.mem_reverse.mp hr
  exact firstGap_le (fun r hr => (hs.paged r (hmem hr)).nonempty) (fun r hr => h.apart r (hmem hr))
    (fun r hr => h.guarded r (hmem hr)) h.above

theorem gap_firstGap (h : firstGap size pageSize s.ascending + size ≤ addressLimit) :
    s.Gap size (firstGap size pageSize s.ascending) := by
  have hclears : ∀ r ∈ s.regions, r.stop + pageSize ≤ firstGap size pageSize s.ascending ∨
      firstGap size pageSize s.ascending + size ≤ r.base.toNat :=
    fun r hr => firstGap_clears (List.pairwise_reverse.mpr hs.ordered) r (List.mem_reverse.mpr hr)
  constructor
  case aligned =>
    exact firstGap_mod (fun r hr => hs.paged r (List.mem_reverse.mp hr)) (Nat.mod_self _)
  case above => exact le_firstGap _ _ _
  case limit => exact h
  case apart => exact fun r hr => (hclears r hr).imp_left (Nat.le_trans (Nat.le_add_right _ _))
  case guarded => exact fun r hr hlt => (hclears r hr).resolve_right (by omega)

theorem exists_gap_iff :
    (∃ b, s.Gap size b) ↔ firstGap size pageSize s.ascending + size ≤ addressLimit := by
  constructor
  case mp  => exact fun ⟨b, h⟩ =>
    Nat.le_trans (Nat.add_le_add_right (firstGap_le_of_gap hs h) _) h.limit
  case mpr => exact fun h => ⟨_, gap_firstGap hs h⟩

theorem isLeast_firstGap (h : ∃ b, s.Gap size b) :
    IsLeast {b | s.Gap size b} (firstGap size pageSize s.ascending) :=
  ⟨gap_firstGap hs ((exists_gap_iff hs).mp h), fun _ => firstGap_le_of_gap hs⟩

end WellFormed

theorem Gap.toNat_ofNat (h : s.Gap (pageCeil len) b) (hl : 0 < len) :
    (BitVec.ofNat 32 b).toNat = b := by
  have hlen := le_pageCeil len
  have hlimit := h.limit
  rw [BitVec.toNat_ofNat]
  exact Nat.mod_eq_of_lt (show b < addressLimit by omega)

theorem Gap.free (h : s.Gap (pageCeil len) b) (hl : 0 < len) :
    s.Free (BitVec.ofNat 32 b) (pageCeil len) := by
  have hb := h.toNat_ofNat hl
  constructor
  case nonempty => exact Nat.lt_of_lt_of_le hl (le_pageCeil len)
  case aligned => rw [hb, h.aligned]
  case rounds =>
    have habove := h.above
    have hlimit := h.limit
    rw [pageCeil_pageCeil]
    simp only [pageSize] at habove
    omega
  case limit => rw [hb, pageCeil_pageCeil]; exact h.limit
  case apart => rw [hb, pageCeil_pageCeil]; exact h.apart

theorem allocateAnywhere_of_isLeast (hs : s.WellFormed) (hl : 0 < len)
    (h : IsLeast {b | s.Gap (pageCeil len) b} b) (access : Access) :
    s.allocateAnywhere len access = .ok (BitVec.ofNat 32 b, s.insert (BitVec.ofNat 32 b)
      ⟨BitVec.ofNat 32 b, access, Array.replicate (pageCeil len) 0⟩) := by
  have hfirst := (isLeast_firstGap hs ⟨b, h.left⟩).unique h
  have hfree := h.left.free hl
  have hrounds := hfree.rounds
  have hlimit := h.left.limit
  rw [pageCeil_pageCeil] at hrounds
  simp only [allocateAnywhere, Nat.ne_of_gt hl, pageRound?_eq, hrounds, hfirst, if_false, if_true,
    Nat.not_lt.mpr hlimit, allocate_of_free hfree, pageCeil_pageCeil]
  rfl

theorem allocateAnywhere_of_not_gap (hs : s.WellFormed) (hl : 0 < len)
    (h : ¬∃ b, s.Gap (pageCeil len) b) (access : Access) :
    s.allocateAnywhere len access = .error (.exhausted len) := by
  rw [exists_gap_iff hs, Nat.not_le] at h
  unfold allocateAnywhere
  rw [if_neg (Nat.ne_of_gt hl), pageRound?_eq]
  split
  case h_1 => rfl
  case h_2 size hsize =>
    split at hsize
    case isFalse => cases hsize
    case isTrue =>
      cases hsize
      exact if_pos h

-- A region that was mapped anywhere is in a gap.
theorem gap_of_allocateAnywhere {base : Word} (hs : s.WellFormed)
    (h : s.allocateAnywhere len access = .ok (base, s')) :
    s.Gap (pageCeil len) base.toNat ∧ base ∉ s.keys ∧
      s' = s.insert base ⟨base, access, Array.replicate (pageCeil len) 0⟩ := by
  have hl : 0 < len := by
    by_contra hz
    rw [Nat.eq_zero_of_not_pos hz] at h
    cases h
  by_cases hg : ∃ b, s.Gap (pageCeil len) b
  case neg =>
    rw [allocateAnywhere_of_not_gap hs hl hg] at h
    cases h
  case pos =>
    have hleast := isLeast_firstGap hs hg
    rw [allocateAnywhere_of_isLeast hs hl hleast] at h
    cases h
    have hkey := (hleast.left.free hl).not_mem_keys hs
    rw [hleast.left.toNat_ofNat hl]
    exact ⟨hleast.left, hkey, rfl⟩

-- Whatever memory was asked before, a region that may go anywhere is mapped at the least address
-- that has a gap for it, and there is no other reason to refuse it than that there is none.
theorem allocateAnywhere_firstFit (reqs : List Request) (hl : 0 < len) (access : Access) :
    let s := empty.performAll reqs
    let req := Request.allocateAnywhere len access
    ((∃ base s', s.perform req = (.ok (.base base), s')) ↔ ∃ b, s.Gap (pageCeil len) b) ∧
      (∀ base s', s.perform req = (.ok (.base base), s') →
        IsLeast {b | s.Gap (pageCeil len) b} base.toNat ∧ s'.WellFormed ∧
          s'.regions.Perm (⟨base, access, Array.replicate (pageCeil len) 0⟩ :: s.regions)) ∧
      ((¬∃ b, s.Gap (pageCeil len) b) → s.perform req = (.error (.exhausted len), s)) := by
  intro s req
  have hs : s.WellFormed := wellFormed_performAll wellFormed_empty reqs
  have hnone (h : ¬∃ b, s.Gap (pageCeil len) b) :
      s.perform req = (.error (.exhausted len), s) := by
    rw [perform, serve, allocateAnywhere_of_not_gap hs hl h]
    rfl
  have hsome {b : Nat} (h : IsLeast {b | s.Gap (pageCeil len) b} b) :
      s.perform req = (.ok (.base (BitVec.ofNat 32 b)), s.insert (BitVec.ofNat 32 b)
        ⟨BitVec.ofNat 32 b, access, Array.replicate (pageCeil len) 0⟩) := by
    rw [perform, serve, allocateAnywhere_of_isLeast hs hl h]
    rfl
  have hgap {base : Word} {s' : AddressSpace} (h : s.perform req = (.ok (.base base), s')) :
      ∃ b, s.Gap (pageCeil len) b := by
    by_contra hn
    rw [hnone hn] at h
    cases h
  refine ⟨⟨?mp, ?mpr⟩, fun base s' h => ?least, hnone⟩
  case mp =>
    rintro ⟨_, _, h⟩
    exact hgap h
  case mpr => exact fun h => ⟨_, _, hsome (isLeast_firstGap hs h)⟩
  case least =>
    have hleast := isLeast_firstGap hs (hgap h)
    have hwell := wellFormed_perform hs req
    have hkey := (hleast.left.free hl).not_mem_keys hs
    rw [h] at hwell
    rw [hsome hleast] at h
    cases h
    refine ⟨?_, hwell, perm_insert hkey _⟩
    rwa [Gap.toNat_ofNat hleast.left hl]

-- A region at address zero, a gap that is too small, and one that fits exactly.
def apartRegions : List Request := [
  .allocate 0x3000 0x1000 .readWrite,
  .allocate 0x7000 0x1000 .readWrite,
  .allocate 0 0x1000 .readWrite]

theorem allocateAnywhere_firstFit_exact :
    let s := empty.performAll apartRegions
    0 < 0x1001 ∧ (s.perform (.allocateAnywhere 0x1001 .readWrite)).fst = .ok (.base 0x5000) ∧
      IsLeast {b | s.Gap (pageCeil 0x1001) b} 0x5000 := by
  intro s
  have hp : (s.perform (.allocateAnywhere 0x1001 .readWrite)).fst = .ok (.base 0x5000) := by
    decide +kernel
  rcases hr : s.perform (.allocateAnywhere 0x1001 .readWrite) with ⟨answer, s'⟩
  rw [hr] at hp
  cases hp
  have hpos : 0 < 0x1001 := by decide
  have ⟨_, hfirst, _⟩ := allocateAnywhere_firstFit apartRegions hpos .readWrite
  have hleast : IsLeast _ (0x5000 : Word).toNat := (hfirst _ _ hr).left
  exact ⟨hpos, rfl, hleast⟩

end RV32IM.AddressSpace
