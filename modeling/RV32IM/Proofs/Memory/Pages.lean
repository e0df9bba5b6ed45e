import RV32IM.Memory.Request
import RV32IM.Proofs.Memory.Alike

-- The regions of an address space. They are whole pages, and the list of them goes down without an
-- overlap. Each has its base for a key, so the one that is looked up for an address is the only one
-- that can hold it. No request to memory changes this.

namespace RV32IM

theorem exists_of_map_eq_ok {ε α β : Type} {x : Except ε α} {f : α → β} {b : β}
    (h : x.map f = .ok b) : ∃ a, x = .ok a ∧ f a = b := by
  cases x
  case error => cases h
  case ok a => exact ⟨a, rfl, Except.ok.inj h⟩

theorem exists_of_bind_eq_ok {ε α β : Type} {x : Except ε α} {f : α → Except ε β} {b : β}
    (h : x >>= f = .ok b) : ∃ a, x = .ok a ∧ f a = .ok b := by
  cases x
  case error => cases h
  case ok a => exact ⟨a, rfl, h⟩

theorem guard_eq_ok_iff {ε α : Type} {c : Prop} [Decidable c] {e : ε} {k : PUnit → Except ε α}
    {a : α} : (if c then throw e >>= k else k ()) = .ok a ↔ ¬c ∧ k () = .ok a := by
  by_cases hc : c
  case pos =>
    simp only [hc, if_true, not_true, false_and, iff_false]
    nofun
  case neg => simp [hc]

-- A length rounded up to whole pages.
def pageCeil (len : Nat) : Nat :=
  (len + (pageSize - 1)) / pageSize * pageSize

theorem pageRound?_eq (len : Nat) :
    pageRound? len = if pageCeil len < addressLimit then some (pageCeil len) else none := by
  have hceil : len + (pageSize - 1) < addressLimit ↔ pageCeil len < addressLimit := by
    simp only [pageCeil, pageSize, addressLimit_eq]
    omega
  simp only [pageRound?, hceil]
  rfl

theorem le_pageCeil (len : Nat) : len ≤ pageCeil len := by
  simp only [pageCeil, pageSize]
  omega

@[simp]
theorem pageCeil_pageCeil (len : Nat) : pageCeil (pageCeil len) = pageCeil len := by
  simp only [pageCeil, pageSize]
  omega

-- Whether a region is made of whole pages that lie in the address space.
structure Region.Paged (r : Region) : Prop where
  aligned  : r.base.toNat % pageSize = 0
  whole    : r.bytes.size % pageSize = 0
  nonempty : 0 < r.bytes.size
  limit    : r.stop ≤ addressLimit

namespace AddressSpace

structure WellFormed (s : AddressSpace) : Prop where
  keyed   : ∀ e ∈ s.entries, e.1 = e.2.base
  paged   : ∀ r ∈ s.regions, r.Paged
  -- Each region ends at or below the base of those before it.
  ordered : s.regions.Pairwise fun r q => q.stop ≤ r.base.toNat

-- Whether the whole pages from `base` on that hold `len` bytes can be mapped.
structure Free (s : AddressSpace) (base : Word) (len : Nat) : Prop where
  nonempty : 0 < len
  aligned  : base.toNat % pageSize = 0
  rounds   : pageCeil len < addressLimit
  limit    : base.toNat + pageCeil len ≤ addressLimit
  apart    : ∀ r ∈ s.regions, r.stop ≤ base.toNat ∨ base.toNat + pageCeil len ≤ r.base.toNat

variable {s s' : AddressSpace} {base addr : Word} {len : Nat} {access required : Access}
  {bs : List Byte} {r q : Region}

theorem wellFormed_empty : empty.WellFormed where
  keyed   := nofun
  paged   := nofun
  ordered := .nil

section Spans

-- Where the regions are.
def spans (s : AddressSpace) : List (Word × Nat) :=
  s.regions.map fun r => (r.base, r.bytes.size)

theorem Alike.spans_eq {on : Access → Prop} (h : s.Alike on s') : s.spans = s'.spans := by
  have hs : List.Forall₂ (fun r r' : Region => (r.base, r.bytes.size) = (r'.base, r'.bytes.size))
      s.regions s'.regions :=
    h.regions.imp fun _ _ hr => by rw [hr.base, hr.size]
  rwa [spans, spans, ← List.forall₂_eq_eq_eq, List.forall₂_map_left_iff, List.forall₂_map_right_iff]

theorem WellFormed.keys_eq (hs : s.WellFormed) : s.keys = s.regions.map Region.base := by
  rw [keys, regions, List.map_map]
  exact List.map_inj_left.mpr hs.keyed

theorem WellFormed.alike {on : Access → Prop} (hs : s.WellFormed) (h : s.Alike on s') :
    s'.WellFormed where
  keyed := by
    have hb : s.regions.map Region.base = s'.regions.map Region.base := by
      simpa [spans, Function.comp_def] using congrArg (List.map Prod.fst) h.spans_eq
    have hk : s'.keys = s'.regions.map Region.base := by rw [h.keys_eq, hs.keys_eq, hb]
    rw [keys, regions, List.map_map] at hk
    exact List.map_inj_left.mp hk
  paged r hr := by
    have hm : (r.base, r.bytes.size) ∈ s.spans := h.spans_eq ▸ List.mem_map_of_mem hr
    obtain ⟨q, hq, he⟩ := List.mem_map.mp hm
    obtain ⟨hb, hl⟩ := Prod.mk.inj he
    obtain ⟨ha, hw, hn, hlim⟩ := hs.paged q hq
    simp only [Region.stop, hb, hl] at ha hw hn hlim
    exact ⟨ha, hw, hn, hlim⟩
  ordered := by
    have ho : s.spans.Pairwise fun r q => q.1.toNat + q.2 ≤ r.1.toNat :=
      List.pairwise_map.mpr hs.ordered
    exact List.pairwise_map.mp (h.spans_eq ▸ ho)

-- Overwriting moves no region.
theorem alike_overwrite (s : AddressSpace) (addr : Word) (bs : List Byte) :
    s.Alike (fun _ => False) (s.overwrite addr bs) := by
  obtain ⟨es⟩ := s
  simp only [Alike, overwrite]
  induction es
  case nil => exact .nil
  case cons e es ih =>
    unfold overwrite.go
    split
    case isTrue  => exact .cons ⟨rfl, .overwrite_of_not not_false addr bs⟩ (Alike.refl _ ⟨es⟩)
    case isFalse => exact .cons ⟨rfl, .refl _ e.2⟩ ih

theorem alike_write (h : s.write addr bs required = .ok s') : s.Alike (fun _ => False) s' := by
  have ⟨_, _, hs'⟩ := check_of_write h
  exact hs' ▸ alike_overwrite s addr bs

theorem wellFormed_overwrite (hs : s.WellFormed) (addr : Word) (bs : List Byte) :
    (s.overwrite addr bs).WellFormed :=
  hs.alike (alike_overwrite s addr bs)

end Spans

section Lookup

variable (hs : s.WellFormed)

include hs

-- Of regions that go down, the first that begins at or below an address is the one that holds it.
theorem lookup_of_covers (hr : r ∈ s.regions) (hl : 0 < len) (hc : r.Covers addr len) :
    s.lookup addr = some r := by
  have hkey := hs.keyed
  have ho := hs.ordered
  obtain ⟨hb, hstop⟩ := hc
  obtain ⟨es⟩ := s
  simp only [regions, List.pairwise_map] at hkey ho hr
  clear hs
  induction ho
  case nil => cases hr
  case cons e es he _ ih =>
    obtain ⟨hbase, hkeys⟩ := List.forall_mem_cons.mp hkey
    rw [lookup_cons, hbase]
    cases hr
    case head => exact if_pos hb
    case tail hr =>
      obtain ⟨e', he', hr'⟩ := List.mem_map.mp hr
      have hlt : ¬e.2.base ≤ addr := by
        have hstop' := he e' he'
        rw [hr'] at hstop'
        rw [BitVec.le_def]
        omega
      rw [if_neg hlt]
      exact ih hr hkeys

theorem locate?_eq_some_iff (hl : 0 < len) :
    s.locate? addr len = some r ↔ r ∈ s.regions ∧ r.Covers addr len := by
  unfold locate?
  constructor
  case mp =>
    intro h
    split at h
    case h_2 => cases h
    case h_1 hf =>
      split at h
      case isFalse => cases h
      case isTrue hc =>
        cases h
        exact ⟨mem_of_lookup hf, hc⟩
  case mpr =>
    intro ⟨hr, hc⟩
    rw [lookup_of_covers hs hr hl hc]
    exact if_pos hc

theorem regionAt?_eq_some_iff :
    s.regionAt? addr = some r ↔ r ∈ s.regions ∧ r.Covers addr 1 :=
  locate?_eq_some_iff hs Nat.one_pos

end Lookup

section Allocate

section Insert

variable {key : Word} {e : Word × Region} {es : List (Word × Region)}

theorem mem_of_mem_insertGo (h : e ∈ insert.go key q es) : e = (key, q) ∨ e ∈ es := by
  induction es
  case nil => exact .inl (List.mem_singleton.mp h)
  case cons e' es ih =>
    unfold insert.go at h
    split at h
    case isTrue => exact List.mem_cons.mp h
    case isFalse =>
    split at h
    case isTrue  => exact (List.mem_cons.mp h).imp_right (List.mem_cons_of_mem _)
    case isFalse =>
      cases List.mem_cons.mp h
      case inl h => exact .inr (h ▸ List.mem_cons_self)
      case inr h => exact (ih h).imp_right (List.mem_cons_of_mem _)

theorem eq_or_mem_of_mem_insert (h : r ∈ (s.insert key q).regions) : r = q ∨ r ∈ s.regions := by
  have ⟨e, he, hr⟩ := List.mem_map.mp h
  cases mem_of_mem_insertGo he
  case inl he => exact .inl (by rw [← hr, he])
  case inr he => exact .inr (hr ▸ List.mem_map_of_mem he)

theorem perm_insertGo (hk : key ∉ es.map Prod.fst) (q : Region) :
    (insert.go key q es).Perm ((key, q) :: es) := by
  induction es
  case nil => exact .refl _
  case cons e es ih =>
    rw [List.map_cons, List.mem_cons, not_or] at hk
    unfold insert.go
    rw [if_neg (Ne.symm hk.left)]
    split
    case isTrue  => exact .refl _
    case isFalse => exact ((ih hk.right).cons e).trans (.swap (key, q) e es)

theorem perm_insert (hk : key ∉ s.keys) (q : Region) :
    (s.insert key q).regions.Perm (q :: s.regions) :=
  (perm_insertGo hk q).map Prod.snd

theorem mem_insert (hk : key ∉ s.keys) : r ∈ (s.insert key q).regions ↔ r = q ∨ r ∈ s.regions :=
  (perm_insert hk q).mem_iff.trans List.mem_cons

theorem pairwise_insertGo (hk : ∀ e ∈ es, e.1 = e.2.base) (hn : ∀ e ∈ es, 0 < e.2.bytes.size)
    (ho : es.Pairwise fun e e' => e'.2.stop ≤ e.2.base.toNat) (hq : 0 < q.bytes.size)
    (ha : ∀ e ∈ es, e.2.stop ≤ q.base.toNat ∨ q.stop ≤ e.2.base.toNat) :
    (insert.go q.base q es).Pairwise fun e e' => e'.2.stop ≤ e.2.base.toNat := by
  induction ho
  case nil => exact List.pairwise_singleton ..
  case cons e es he ho ih =>
    have ⟨hbase, hks⟩ := List.forall_mem_cons.mp hk
    have ⟨hne, hns⟩ := List.forall_mem_cons.mp hn
    have ⟨hae, has⟩ := List.forall_mem_cons.mp ha
    simp only [Region.stop] at hae
    unfold insert.go
    simp only [hbase, BitVec.lt_def]
    split
    case isTrue hlt =>
      -- The region that is new is above all that are left.
      have heq : e.2.stop ≤ q.base.toNat := by
        simp only [Region.stop]
        omega
      have hes : ∀ e' ∈ es, e'.2.stop ≤ q.base.toNat := fun e' he' => by
        have := he e' he'
        omega
      exact .cons (List.forall_mem_cons.mpr ⟨heq, hes⟩) (.cons he ho)
    case isFalse hlt =>
      have hne : e.2.base ≠ q.base := fun heq => by
        rw [heq] at hae
        omega
      rw [if_neg hne]
      refine .cons (fun e' he' => ?_) (ih hks hns has)
      cases mem_of_mem_insertGo he'
      case inr he' => exact he e' he'
      case inl he' =>
        simp only [he', Region.stop]
        omega

variable (hs : s.WellFormed)

include hs

-- Where a region begins that is apart from all others, no other region begins.
theorem base_not_mem_keys (hq : 0 < q.bytes.size)
    (ha : ∀ r ∈ s.regions, r.stop ≤ q.base.toNat ∨ q.stop ≤ r.base.toNat) : q.base ∉ s.keys := by
  rw [hs.keys_eq]
  intro hm
  have ⟨r, hr, hbase⟩ := List.mem_map.mp hm
  have hn := (hs.paged r hr).nonempty
  have hapart := ha r hr
  simp only [Region.stop, hbase] at hapart
  omega

theorem wellFormed_insert (hq : q.Paged)
    (ha : ∀ r ∈ s.regions, r.stop ≤ q.base.toNat ∨ q.stop ≤ r.base.toNat) :
    (s.insert q.base q).WellFormed where
  keyed e he := by
    cases mem_of_mem_insertGo he
    case inl he => rw [he]
    case inr he => exact hs.keyed e he
  paged r hr := by
    cases eq_or_mem_of_mem_insert hr
    case inl h => exact h ▸ hq
    case inr h => exact hs.paged r h
  ordered := by
    have ho := hs.ordered
    rw [regions, List.pairwise_map] at ho ⊢
    have hmem {e : Word × Region} (he : e ∈ s.entries) : e.2 ∈ s.regions := List.mem_map_of_mem he
    exact pairwise_insertGo hs.keyed (fun e he => (hs.paged _ (hmem he)).nonempty) ho hq.nonempty
      fun e he => ha _ (hmem he)

end Insert

theorem overlaps_eq_false_iff {base stop : Nat} :
    s.overlaps base stop = false ↔ ∀ r ∈ s.regions, r.stop ≤ base ∨ stop ≤ r.base.toNat := by
  simp only [overlaps, List.any_eq_false, Bool.and_eq_true, decide_eq_true_eq, not_and_or,
    Nat.not_lt]

theorem allocate_of_free (h : s.Free base len) (access : Access) :
    s.allocate base len access =
      .ok (s.insert base ⟨base, access, Array.replicate (pageCeil len) 0⟩) := by
  have hfit : (decide (base.toNat + pageCeil len > addressLimit) ||
      s.overlaps base.toNat (base.toNat + pageCeil len)) = false := by
    simpa [overlaps_eq_false_iff.mpr h.apart] using h.limit
  simp [allocate, Nat.ne_of_gt h.nonempty, h.aligned, pageRound?_eq, h.rounds, hfit]

theorem free_of_allocate (h : s.allocate base len access = .ok s') : s.Free base len := by
  unfold allocate at h
  split at h
  case isTrue => cases h
  case isFalse hlen =>
  split at h
  case isTrue => cases h
  case isFalse hbase =>
  by_cases hround : pageCeil len < addressLimit
  case neg =>
    simp only [pageRound?_eq, if_neg hround] at h
    cases h
  case pos =>
    simp only [pageRound?_eq, if_pos hround] at h
    split at h
    case isTrue => cases h
    case isFalse hfit =>
      rw [Bool.not_eq_true, Bool.or_eq_false_iff, decide_eq_false_iff_not] at hfit
      exact ⟨Nat.pos_of_ne_zero hlen, not_not.mp hbase, hround, Nat.le_of_not_lt hfit.left,
        overlaps_eq_false_iff.mp hfit.right⟩

theorem Free.paged (h : s.Free base len) (access : Access) :
    Region.Paged ⟨base, access, Array.replicate (pageCeil len) 0⟩ := by
  have hn := h.nonempty
  have hle := le_pageCeil len
  refine ⟨h.aligned, ?_, ?_, ?_⟩
  case refine_1 => simp [pageCeil]
  case refine_2 =>
    simp only [Array.size_replicate]
    omega
  case refine_3 => simpa [Region.stop] using h.limit

theorem Free.not_mem_keys (h : s.Free base len) (hs : s.WellFormed) : base ∉ s.keys :=
  base_not_mem_keys hs (h.paged .none).nonempty (by simpa [Region.stop] using h.apart)

theorem wellFormed_allocate (hs : s.WellFormed) (h : s.allocate base len access = .ok s') :
    s'.WellFormed := by
  have hf := free_of_allocate h
  rw [allocate_of_free hf] at h
  cases h
  exact wellFormed_insert hs (hf.paged access) (by simpa [Region.stop] using hf.apart)

-- A gap is found for whole pages, and mapping them there is then an ordinary request.
theorem allocate_of_allocateAnywhere (h : s.allocateAnywhere len access = .ok (base, s')) :
    s.allocate base (pageCeil len) access = .ok s' := by
  unfold allocateAnywhere at h
  split at h
  case isTrue => cases h
  case isFalse =>
  rw [pageRound?_eq] at h
  split at h
  case h_1 => cases h
  case h_2 size hsize =>
  split at hsize
  case isFalse => cases hsize
  case isTrue =>
  cases hsize
  simp only at h
  split at h
  case isTrue => cases h
  case isFalse =>
    have ⟨_, ha, he⟩ := exists_of_map_eq_ok h
    cases he
    exact ha

end Allocate

-- Where a region can be mapped does not depend on what memory holds.
section Alike

variable {on : Access → Prop} {t : AddressSpace} (h : s.Alike on s')

include h

theorem Alike.insert (key : Word) (q : Region) :
    (s.insert key q).Alike on (s'.insert key q) := by
  obtain ⟨es⟩ := s
  obtain ⟨es'⟩ := s'
  simp only [Alike, AddressSpace.insert] at *
  have hq : Region.Alike on q q := .refl on q
  induction h
  case nil => exact .cons ⟨rfl, hq⟩ .nil
  case cons e e' es es' he h ih =>
    unfold AddressSpace.insert.go
    rw [he.left]
    split
    case isTrue => exact .cons ⟨rfl, hq⟩ (.cons he h)
    case isFalse =>
    split
    case isTrue  => exact .cons ⟨rfl, hq⟩ h
    case isFalse => exact .cons he ih

theorem Alike.free (hf : s.Free base len) : s'.Free base len where
  nonempty := hf.nonempty
  aligned  := hf.aligned
  rounds   := hf.rounds
  limit    := hf.limit
  apart r' hr' := by
    have hm : (r'.base, r'.bytes.size) ∈ s.spans := h.spans_eq ▸ List.mem_map_of_mem hr'
    have ⟨r, hr, he⟩ := List.mem_map.mp hm
    have ⟨hb, hl⟩ := Prod.mk.inj he
    have ha := hf.apart r hr
    simp only [Region.stop, hb, hl] at ha
    exact ha

theorem Alike.allocate (ha : s.allocate base len access = .ok t) :
    ∃ t', s'.allocate base len access = .ok t' ∧ t.Alike on t' := by
  have hf := free_of_allocate ha
  rw [allocate_of_free hf] at ha
  cases ha
  exact ⟨_, allocate_of_free (h.free hf) access, h.insert base _⟩

theorem Alike.firstGap_eq (size candidate : Nat) :
    firstGap size candidate s'.ascending = firstGap size candidate s.ascending := by
  have hr : List.Forall₂ (Region.Alike on) s.ascending s'.ascending := List.rel_reverse h.regions
  generalize s.ascending = rs, s'.ascending = rs' at hr
  clear h
  induction hr generalizing candidate
  case nil => rfl
  case cons hr _ ih => simp only [firstGap, hr.base, Region.stop, hr.size, ih]

theorem Alike.allocateAnywhere (ha : s.allocateAnywhere len access = .ok (base, t)) :
    ∃ t', s'.allocateAnywhere len access = .ok (base, t') ∧ t.Alike on t' := by
  unfold AddressSpace.allocateAnywhere at *
  simp only [h.firstGap_eq]
  split at ha
  case isTrue => cases ha
  case isFalse hlen =>
  split at ha
  case h_1 => cases ha
  case h_2 size _ =>
  simp only at ha
  split at ha
  case isTrue => cases ha
  case isFalse hfit =>
    have ⟨_, ha, he⟩ := exists_of_map_eq_ok ha
    cases he
    have ⟨t', ha', ht⟩ := h.allocate ha
    exact ⟨t', by rw [if_neg hlen, if_neg hfit, ha']; rfl, ht⟩

end Alike

end AddressSpace

end RV32IM
