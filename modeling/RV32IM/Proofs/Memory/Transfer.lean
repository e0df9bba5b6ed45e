import RV32IM.Proofs.Memory.Journal

-- Transfers of bytes in a row, at once and one by one. The two are the same where one region has
-- all of the bytes. Only a transfer one by one goes on from a region into the next, or from the end
-- of memory to its beginning, and only it can be refused when a part of it is done.

namespace RV32IM

namespace Request

-- The request that transfers the same bytes one by one.
def each? : Request → Option Request
  | load addr len => some (loadEach addr len)
  | store addr bs => some (storeEach addr bs)
  | _ => none

end Request

namespace Region

variable {r : Region} {addr : Word} {n : Nat}

theorem Covers.mono {m : Nat} (h : r.Covers addr n) (hm : m ≤ n) : r.Covers addr m :=
  ⟨h.left, Nat.le_trans (Nat.add_le_add_left hm _) h.right⟩

theorem Covers.tail (h : r.Covers addr (n + 1)) (hl : r.stop ≤ addressLimit) (hn : 0 < n) :
    (addr + 1).toNat = addr.toNat + 1 ∧ r.Covers (addr + 1) n := by
  have ⟨hle, hlt⟩ := h
  have ha : (addr + 1).toNat = addr.toNat + 1 := Word.toNat_add_ofNat (n := 1) (by omega)
  rw [BitVec.le_def] at hle
  exact ⟨ha, by rw [BitVec.le_def]; omega, by omega⟩

-- A region that has each of the bytes in a row has them as a whole, unless it is all of memory.
theorem covers_of_forall (hs : r.bytes.size < addressLimit) (hn : 0 < n)
    (h : ∀ i < n, r.Covers (addr + BitVec.ofNat 32 i) 1) : r.Covers addr n := by
  obtain ⟨hle, _⟩ : r.Covers addr 1 := by simpa using h 0 hn
  have hlt : addr.toNat < addressLimit := addr.isLt
  have hround : addr.toNat + n ≤ addressLimit := by
    by_contra hover
    -- Both the last address of memory and the first are among those of the bytes.
    obtain ⟨_, hlast⟩ := h (addressLimit - addr.toNat - 1) (by omega)
    obtain ⟨hfirst, _⟩ := h (addressLimit - addr.toNat) (by omega)
    have hzero : (addr + BitVec.ofNat 32 (addressLimit - addr.toNat)).toNat = 0 := by
      rw [addressLimit_eq] at *
      rw [BitVec.toNat_add, BitVec.toNat_ofNat]
      omega
    rw [Word.toNat_add_ofNat (by omega)] at hlast
    rw [BitVec.le_def, hzero] at hfirst
    simp only [stop] at hlast
    omega
  obtain ⟨_, hlast⟩ := h (n - 1) (by omega)
  rw [Word.toNat_add_ofNat (by omega)] at hlast
  exact ⟨hle, by omega⟩

theorem overwrite_cons (hle : r.base ≤ addr) (ha : (addr + 1).toNat = addr.toNat + 1) (b : Byte)
    (bs : List Byte) :
    (r.overwrite addr [b]).overwrite (addr + 1) bs = r.overwrite addr (b :: bs) := by
  rw [BitVec.le_def] at hle
  have hoff : addr.toNat + 1 - r.base.toNat = addr.toNat - r.base.toNat + 1 := by omega
  simp only [overwrite, offset, ha, hoff, overwriteFrom]

end Region

namespace AddressSpace

variable {s s' : AddressSpace} {addr : Word} {n : Nat} {required : Access} {b : Byte}
  {bs : List Byte} {r : Region} {req each : Request} {e : Extent} {j : Journal}

-- Whether a region has the byte at an address and permits an access to it.
def Permits (s : AddressSpace) (required : Access) (a : Word) : Prop :=
  ∃ r ∈ s.regions, r.Covers a 1 ∧ r.access.allows required

-- Whether bytes in a row may all be accessed, but are not all in one region.
structure Spread (s : AddressSpace) (e : Extent) : Prop where
  permitted : ∀ i < e.len, s.Permits e.required (e.addr + BitVec.ofNat 32 i)
  apart     : ∃ i < e.len, ∃ k < e.len,
    s.regionAt? (e.addr + BitVec.ofNat 32 i) ≠ s.regionAt? (e.addr + BitVec.ofNat 32 k)

-- How a transfer that is made at once compares to the same one byte by byte.
structure Refines (s : AddressSpace) (req each : Request) (e : Extent) : Prop where
  granted  : ∀ a s', s.perform req = (.ok a, s') → s.perform each = (.ok a, s')
  together : s.Mapped e.addr e.len → s.perform each = s.perform req
  -- A transfer that fails ends in an error, or in a panic if it is as long as all of memory.
  refused  : (∀ a, (s.perform req).fst ≠ .ok a) → (s.perform req).snd = s
  panicked : (s.perform req).fst = .panicked → addressLimit ≤ e.len
  spread   : (∀ a, (s.perform req).fst ≠ .ok a) ∧ (∃ a, (s.perform each).fst = .ok a) ↔ s.Spread e

-- Which transfers one by one are granted.
section Permits

variable (hs : s.WellFormed)

include hs

theorem permits_iff_check {a : Word} :
    s.Permits required a ↔ ∃ r, s.check a 1 required = .ok r := by
  simp only [check_eq_ok_iff_mem hs Nat.one_pos, Permits]

theorem Alike.permits_iff {on : Access → Prop} (h : s.Alike on s') {a : Word} :
    s'.Permits required a ↔ s.Permits required a := by
  rw [permits_iff_check hs, permits_iff_check (hs.alike h)]
  obtain ⟨r, r', hc, hc', _⟩ | ⟨e, hc, hc'⟩ := h.check a 1 required
  case inl => simp [hc, hc']
  case inr => simp [hc, hc']

omit hs in
theorem forall_permits_succ :
    (∀ i < n + 1, s.Permits required (addr + BitVec.ofNat 32 i)) ↔
      s.Permits required addr ∧ ∀ i < n, s.Permits required (addr + 1 + BitVec.ofNat 32 i) := by
  have hzero : addr + BitVec.ofNat 32 0 = addr := BitVec.add_zero addr
  simp only [Nat.forall_lt_succ_left, hzero, Word.add_one_add_ofNat]

theorem exists_loadEach_iff :
    (∃ bs, s.loadEach addr n = .ok bs) ↔ ∀ i < n, s.Permits .read (addr + BitVec.ofNat 32 i) := by
  induction n generalizing addr
  case zero => simp [loadEach_zero]
  case succ n ih =>
    rw [forall_permits_succ, ← ih, permits_iff_check hs, loadEach_succ, load, read,
      checkBuffer_of_lt (lt_addressLimit (by decide))]
    cases s.check addr 1 .read
    case error => simp [Except.map]
    case ok => cases s.loadEach (addr + 1) n <;> simp [Except.map]

theorem storeEach_eq_ok_iff :
    (s.storeEach addr bs).fst = .ok () ↔
      ∀ i < bs.length, s.Permits .write (addr + BitVec.ofNat 32 i) := by
  induction bs generalizing s addr
  case nil => simp [storeEach_nil]
  case cons b bs ih =>
    rw [List.length_cons, forall_permits_succ, permits_iff_check hs, storeEach_cons]
    cases s.check addr 1 .write
    case error => simp
    case ok =>
      simp [ih (wellFormed_overwrite hs addr [b]), (alike_overwrite s addr [b]).permits_iff hs]

omit hs in
theorem perform_loadEach :
    s.perform (.loadEach addr n) = (.of ((s.loadEach addr n).map .bytes), s) :=
  rfl

omit hs in
theorem perform_storeEach :
    s.perform (.storeEach addr bs) =
      (.of ((s.storeEach addr bs).fst.map fun _ => .done), (s.storeEach addr bs).snd) :=
  rfl

theorem exists_perform_each_iff (h : req.extent? = some e) (he : req.each? = some each) :
    (∃ a, (s.perform each).fst = .ok a) ↔
      ∀ i < e.len, s.Permits e.required (e.addr + BitVec.ofNat 32 i) := by
  cases req
  case load addr n =>
    cases h
    cases he
    rw [← exists_loadEach_iff hs, perform_loadEach]
    cases s.loadEach addr n <;> simp [Reply.of, Except.map]
  case store addr bs =>
    cases h
    cases he
    rw [← storeEach_eq_ok_iff hs, perform_storeEach]
    cases (s.storeEach addr bs).fst <;> simp [Reply.of, Except.map]
  all_goals cases he

end Permits

-- What a transfer one by one does where one region has all of the bytes.
section Covers

variable (hs : s.WellFormed) (hr : r ∈ s.regions)

include hs hr

theorem overwrite_cons (hc : r.Covers addr (bs.length + 1)) (hn : 0 < bs.length) :
    (s.overwrite addr [b]).overwrite (addr + 1) bs = s.overwrite addr (b :: bs) := by
  obtain ⟨ha, hc'⟩ := hc.tail (hs.paged r hr).limit hn
  have hkey := hs.keyed
  have hl := lookup_of_covers hs hr (Nat.succ_pos _) hc
  have hl' := lookup_of_covers hs hr hn hc'
  have hone := Region.overwrite_cons hc.left ha b bs
  have hle := hc.left
  have hle' := hc'.left
  generalize addr + 1 = addr' at hl' hone hle' ⊢
  obtain ⟨es⟩ := s
  simp only [overwrite, mk.injEq]
  clear hs hr
  induction es
  case nil => rfl
  case cons e es ih =>
    obtain ⟨hbase, hkeys⟩ := List.forall_mem_cons.mp hkey
    rw [lookup_cons, hbase] at hl hl'
    by_cases he : e.2.base ≤ addr
    case pos =>
      cases (by simpa [he] using hl : e.2 = r)
      simp [overwrite.go, hbase, hle, hle', hone]
    case neg =>
      have he' : ¬e.2.base ≤ addr' := fun he' => by
        cases (by simpa [he'] using hl' : e.2 = r)
        exact he hle
      rw [if_neg he] at hl
      rw [if_neg he'] at hl'
      simp [overwrite.go, hbase, he, he', ih hkeys hl hl']

theorem storeEach_of_covers (hc : r.Covers addr bs.length) (ha : r.access.allows .write) :
    s.storeEach addr bs = (.ok (), s.overwrite addr bs) := by
  induction bs generalizing s addr r
  case nil => rw [storeEach_nil, overwrite_nil]
  case cons b bs ih =>
    have hone := hc.mono (Nat.succ_pos bs.length)
    have hcheck := (check_eq_ok_iff_mem hs Nat.one_pos).mpr ⟨hr, hone, ha⟩
    simp only [storeEach_cons, hcheck]
    rcases Nat.eq_zero_or_pos bs.length with hn | hn
    case inl => rw [List.eq_nil_of_length_eq_zero hn, storeEach_nil]
    case inr =>
      have hs' := wellFormed_overwrite hs addr [b]
      have hr' := mem_overwrite [b] (lookup_of_covers hs hr Nat.one_pos hone)
      have ⟨_, hc'⟩ := hc.tail (hs.paged r hr).limit hn
      rw [ih hs' hr' ⟨hc'.left, by simpa using hc'.right⟩ ha, overwrite_cons hs hr hc hn]

theorem loadEach_of_covers (hj : j.Describes s) (hc : r.Covers addr n)
    (ha : r.access.allows .read) : s.loadEach addr n = .ok (r.read addr n) := by
  have hpermits : ∀ i < n, s.Permits .read (addr + BitVec.ofNat 32 i) := fun i hi => by
    have ⟨hw, _⟩ := Word.within_add_ofNat (Mapped.limit hs ⟨r, hr, hc⟩) hi
    exact ⟨r, hr, hc.of_within hw, ha⟩
  have ⟨bs, hbs⟩ := (exists_loadEach_iff hs).mpr hpermits
  rw [hbs, loadEach_eq_bytes hs hj hbs, read_eq_bytes hs hj hr hc]

-- The first byte is refused for the reason for which all of them are.
theorem perform_each_of_covers (hj : j.Describes s) (h : req.extent? = some e)
    (he : req.each? = some each) (hn : 0 < e.len) (hl : e.len < addressLimit)
    (hc : r.Covers e.addr e.len) : s.perform each = s.perform req := by
  have hone := hc.mono hn
  by_cases ha : r.access.allows e.required
  case pos =>
    rw [perform_eq_ok h hl ((check_eq_ok_iff_mem hs hn).mpr ⟨hr, hc, ha⟩)]
    cases req
    case load =>
      cases h
      cases he
      simp only [perform_loadEach, loadEach_of_covers hs hr hj hc ha, Request.data, overwrite_nil]
      rfl
    case store =>
      cases h
      cases he
      rw [perform_storeEach, storeEach_of_covers hs hr hc ha]
      rfl
    all_goals cases he
  case neg =>
    have hdenied := check_of_not_allows hs Nat.one_pos hr hone ha
    rw [perform_eq_error h hl (check_of_not_allows hs hn hr hc ha)]
    cases req
    case load addr n =>
      cases h
      cases he
      obtain ⟨n, rfl⟩ := Nat.exists_eq_succ_of_ne_zero (Nat.ne_of_gt hn)
      rw [← checkBuffer_of_lt (lt_addressLimit (by decide))] at hdenied
      simp [perform_loadEach, loadEach_succ, load, read, hdenied, Except.map, Reply.of]
    case store addr bs =>
      cases h
      cases he
      obtain ⟨b, bs, rfl⟩ := List.exists_cons_of_length_pos hn
      simp [perform_storeEach, storeEach_cons, hdenied, Except.map, Reply.of]
    all_goals cases he

end Covers

theorem spread_iff (hs : s.WellFormed) (hsize : ∀ r ∈ s.regions, r.bytes.size < addressLimit)
    (hn : 0 < e.len) :
    s.Spread e ↔ (¬∃ r ∈ s.regions, r.Covers e.addr e.len ∧ r.access.allows e.required) ∧
      ∀ i < e.len, s.Permits e.required (e.addr + BitVec.ofNat 32 i) := by
  constructor
  case mp =>
    intro ⟨hp, i, hi, k, hk, hne⟩
    refine ⟨fun ⟨r, hr, hc, _⟩ => hne ?_, hp⟩
    have hat {i : Nat} (hi : i < e.len) : s.regionAt? (e.addr + BitVec.ofNat 32 i) = some r := by
      have ⟨hw, _⟩ := Word.within_add_ofNat (Mapped.limit hs ⟨r, hr, hc⟩) hi
      exact (regionAt?_eq_some_iff hs).mpr ⟨hr, hc.of_within hw⟩
    rw [hat hi, hat hk]
  case mpr =>
    intro ⟨hnone, hp⟩
    refine ⟨hp, ?_⟩
    by_contra hsame
    -- Were all of the bytes in the region of the first one, that region would have them all.
    have ⟨r, hr, hc, ha⟩ := hp 0 hn
    refine hnone ⟨r, hr, Region.covers_of_forall (hsize r hr) hn fun i hi => ?_, ha⟩
    have hat := (regionAt?_eq_some_iff hs).mpr ⟨hr, hc⟩
    have heq : s.regionAt? (e.addr + BitVec.ofNat 32 i) = some r := by
      by_contra hne
      exact hsame ⟨i, hi, 0, hn, fun h => hne (h.trans hat)⟩
    exact ((regionAt?_eq_some_iff hs).mp heq).right

-- Whatever memory was asked before, a transfer at once is granted only if the same transfer one by
-- one is, and does the same. It fails instead of that one exactly if the bytes are not all in one
-- region.
theorem refines_performAll (reqs : List Request) {req each : Request} {e : Extent}
    (h : req.extent? = some e) (he : req.each? = some each) (hn : 0 < e.len) :
    (empty.performAll reqs).Refines req each e := by
  have hs := wellFormed_performAll wellFormed_empty reqs
  have hj := describes_journal reqs
  have hsize := size_lt_performAll (s := empty) nofun reqs
  have hserves := serves_of_describes hs hsize hj h hn
  have heach {r : Region} (hr : r ∈ (empty.performAll reqs).regions)
      (hc : r.Covers e.addr e.len) :
      (empty.performAll reqs).perform each = (empty.performAll reqs).perform req :=
    perform_each_of_covers hs hr hj h he hn (length_lt_of_covers hsize hr hc) hc
  constructor
  case granted =>
    intro a s' hp
    have ⟨r, hr, hc, _⟩ := hserves.granted.mp ⟨a, congrArg Prod.fst hp⟩
    rw [heach hr hc, hp]
  case together => exact fun ⟨r, hr, hc⟩ => heach hr hc
  case refused =>
    intro hno
    cases (empty.performAll reqs).perform_cases_of_extent? h
    case inl hok =>
      have ⟨_, _, _, hserve⟩ := hok
      exact absurd (congrArg Prod.fst hserve) (hno _)
    case inr hno => exact hno.right
  case panicked =>
    intro hp
    by_contra hl
    rw [perform_eq h, not_panics (Nat.lt_of_not_le hl)] at hp
    cases hc : (empty.performAll reqs).checkBuffer e.addr e.len e.required <;> simp [hc] at hp
  case spread =>
    rw [exists_perform_each_iff hs h he, spread_iff hs hsize hn, ← hserves.granted, not_exists]

-- Two regions, of which one begins where the other ends.
def adjacent : List Request := [
  .allocate 0x1000 0x1000 .readWrite,
  .allocate 0x2000 0x1000 .all,
  .store 0x1FFF [7],
  .store 0x2000 [8]]

theorem refines_performAll_adjacent :
    let s := empty.performAll adjacent
    let e : Extent := ⟨0x1FFF, 2, .read⟩
    (Request.load 0x1FFF 2).extent? = some e ∧
      (Request.load 0x1FFF 2).each? = some (.loadEach 0x1FFF 2) ∧ 0 < e.len ∧
      (s.perform (.load 0x1FFF 2)).fst = .error (.unmapped 0x1FFF 2) ∧
      (s.perform (.loadEach 0x1FFF 2)).fst = .ok (.bytes [7, 8]) ∧ s.Spread e := by
  intro s e
  have hrefines := @refines_performAll adjacent (.load 0x1FFF 2) _ e rfl rfl (by decide)
  have hbulk : (s.perform (.load 0x1FFF 2)).fst = .error (.unmapped 0x1FFF 2) := by decide +kernel
  have heach : (s.perform (.loadEach 0x1FFF 2)).fst = .ok (.bytes [7, 8]) := by decide +kernel
  have hno a : (s.perform (.load 0x1FFF 2)).fst ≠ .ok a := by
    rw [hbulk]
    nofun
  exact ⟨rfl, rfl, by decide, hbulk, heach, hrefines.spread.mp ⟨hno, _, heach⟩⟩

end AddressSpace

end RV32IM
