import RV32IM.Proofs.Memory.Pages

-- The regions of a space of which anything was asked. Each request keeps them apart and under their
-- bases, so after any requests a region is mapped exactly where there is room for it, and each
-- address is looked up in the one region that holds it.

namespace RV32IM.AddressSpace

variable {s s' : AddressSpace} {base addr : Word} {len : Nat} {access required : Access}
  {bs : List Byte}

theorem alike_storeEach (s : AddressSpace) (addr : Word) (bs : List Byte) :
    s.Alike (fun _ => False) (s.storeEach addr bs).snd := by
  induction bs generalizing s addr
  case nil => exact .refl _ s
  case cons b bs ih =>
    rw [storeEach_cons]
    split
    case h_1 => exact .refl _ s
    case h_2 => exact (alike_overwrite s addr [b]).trans (ih _ (addr + 1))

theorem settle_of {α : Type} {P : AddressSpace → Prop} {x : Except MemoryError α}
    {f : α → Answer × AddressSpace} (hs : P s) (h : ∀ v, x = .ok v → P (f v).snd) :
    P (s.settle (x.map f)).snd := by
  cases x
  case error => exact hs
  case ok v  => exact h v rfl

-- What a request does to the regions: each stays in its place, or one more is mapped.
inductive Follows (s s' : AddressSpace) : Prop
  | same : s.Alike (fun _ => False) s' → Follows s s'
  | maps {base : Word} {len : Nat} {access : Access} :
    s.allocate base len access = .ok s' → Follows s s'

theorem follows_serve (s : AddressSpace) (req : Request) : s.Follows (s.serve req).snd := by
  have hs : s.Follows s := .same (.refl _ s)
  cases req
  case read | peekWord | load | fetch | loadEach => exact hs
  case storeEach addr bs => exact .same (alike_storeEach s addr bs)
  case allocate => exact settle_of hs fun _ h => .maps h
  case allocateAnywhere => exact settle_of hs fun _ h => .maps (allocate_of_allocateAnywhere h)
  all_goals exact settle_of hs fun _ h => .same (alike_write h)

theorem perform_cases (s : AddressSpace) (req : Request) :
    s.perform req = (.panicked, s) ∨ s.perform req = s.serve req := by
  unfold perform
  split
  case h_2 => exact .inr rfl
  case h_1 =>
    split
    case isTrue  => exact .inl rfl
    case isFalse => exact .inr rfl

theorem follows_perform (s : AddressSpace) (req : Request) : s.Follows (s.perform req).snd := by
  cases s.perform_cases req
  case inl h => exact h ▸ .same (.refl _ s)
  case inr h => exact h ▸ s.follows_serve req

theorem wellFormed_perform (hs : s.WellFormed) (req : Request) :
    (s.perform req).snd.WellFormed := by
  cases s.follows_perform req
  case same h => exact hs.alike h
  case maps h => exact wellFormed_allocate hs h

theorem wellFormed_performAll (hs : s.WellFormed) (reqs : List Request) :
    (s.performAll reqs).WellFormed := by
  induction reqs generalizing s
  case nil => exact hs
  case cons req reqs ih => exact ih (wellFormed_perform hs req)

-- No region is all of memory: its length, rounded up to pages, is a number of 32 bits.
theorem size_lt_perform (hs : ∀ r ∈ s.regions, r.bytes.size < addressLimit) (req : Request) :
    ∀ r ∈ (s.perform req).snd.regions, r.bytes.size < addressLimit := by
  intro r hr
  cases s.follows_perform req
  case same h =>
    have hm : (r.base, r.bytes.size) ∈ s.spans := h.spans_eq ▸ List.mem_map_of_mem hr
    have ⟨q, hq, he⟩ := List.mem_map.mp hm
    rw [← (Prod.mk.inj he).right]
    exact hs q hq
  case maps len _ h =>
    have hf := free_of_allocate h
    rw [allocate_of_free hf] at h
    rw [← Except.ok.inj h] at hr
    cases eq_or_mem_of_mem_insert hr
    case inr hr => exact hs r hr
    case inl hr =>
      rw [hr, Array.size_replicate]
      exact hf.rounds

theorem size_lt_performAll (hs : ∀ r ∈ s.regions, r.bytes.size < addressLimit)
    (reqs : List Request) : ∀ r ∈ (s.performAll reqs).regions, r.bytes.size < addressLimit := by
  induction reqs generalizing s
  case nil => exact hs
  case cons req reqs ih => exact ih (size_lt_perform hs req)

theorem WellFormed.pairwise_base_lt (hs : s.WellFormed) :
    s.ascending.Pairwise fun r q => r.base < q.base := by
  refine List.pairwise_reverse.mpr (hs.ordered.imp_of_mem fun _ hq hrq => ?_)
  have hn := (hs.paged _ hq).nonempty
  rw [BitVec.lt_def]
  simp only [Region.stop] at hrq
  omega

theorem perform_allocate_of_free (h : s.Free base len) (access : Access) :
    s.perform (.allocate base len access) =
      (.ok (.base base), s.insert base ⟨base, access, Array.replicate (pageCeil len) 0⟩) := by
  rw [perform, serve, allocate_of_free h]
  rfl

theorem perform_allocate_of_not_free (h : ¬s.Free base len) (access : Access) :
    ∃ e, s.perform (.allocate base len access) = (.error e, s) := by
  cases ha : s.allocate base len access
  case ok      => exact absurd (free_of_allocate ha) h
  case error e => exact ⟨e, by rw [perform, serve, ha]; rfl⟩

-- Memory is a map of regions by their bases that do not overlap, whatever was asked of it. A region
-- is mapped where there is room for it, and no other changes.
theorem regionAt?_performAll (reqs : List Request) :
    let s := empty.performAll reqs
    s.WellFormed ∧ s.ascending.Pairwise (fun r q => r.base < q.base) ∧
      (∀ base len access,
        let req := Request.allocate base len access
        ((∃ s', s.perform req = (.ok (.base base), s')) ↔ s.Free base len) ∧
        (∀ a s', s.perform req = (.ok a, s') → a = .base base ∧ s'.WellFormed ∧
          s'.regions.Perm (⟨base, access, Array.replicate (pageCeil len) 0⟩ :: s.regions)) ∧
        ((∃ e, s.perform req = (.error e, s)) ↔ ¬s.Free base len)) ∧
      ∀ addr r, s.regionAt? addr = some r ↔ r ∈ s.regions ∧ r.Covers addr 1 := by
  intro s
  have hs : s.WellFormed := wellFormed_performAll wellFormed_empty reqs
  refine ⟨hs, hs.pairwise_base_lt, fun base len access => ?_, fun _ _ => regionAt?_eq_some_iff hs⟩
  intro req
  by_cases h : s.Free base len
  case pos =>
    have hp := perform_allocate_of_free h access
    have hwell := wellFormed_perform hs req
    refine ⟨by simp [req, hp, h], fun a s' ha => ?_, by simp [req, hp, h]⟩
    cases hp.symm.trans ha
    rw [hp] at hwell
    exact ⟨rfl, hwell, perm_insert (h.not_mem_keys hs) _⟩
  case neg =>
    have ⟨e, hp⟩ := perform_allocate_of_not_free h access
    refine ⟨by simp [req, hp, h], fun a s' ha => ?_, by simp [req, hp, h]⟩
    cases hp.symm.trans ha

end RV32IM.AddressSpace
