import RV32IM.Proofs.Memory.Pages

-- Memory as a map from addresses to bytes. Overwriting changes the bytes that it names and no
-- others, and mapping a region adds its bytes to those there are. Bytes in a row are read together
-- where one region holds all of them.

namespace RV32IM

-- Whether an address is one of `len` in a row from `addr` on, which do not wrap around.
def Word.Within (a addr : Word) (len : Nat) : Prop :=
  addr ≤ a ∧ a.toNat < addr.toNat + len

instance (a addr : Word) (len : Nat) : Decidable (a.Within addr len) :=
  inferInstanceAs (Decidable (_ ∧ _))

theorem Word.toNat_add_ofNat {base : Word} {n : Nat} (h : base.toNat + n < addressLimit) :
    (base + BitVec.ofNat 32 n).toNat = base.toNat + n := by
  rw [addressLimit_eq] at h
  rw [BitVec.toNat_add, BitVec.toNat_ofNat]
  omega

theorem Word.add_ofNat_add (addr : Word) (m n : Nat) :
    addr + BitVec.ofNat 32 m + BitVec.ofNat 32 n = addr + BitVec.ofNat 32 (m + n) := by
  rw [BitVec.ofNat_add, BitVec.add_assoc]

theorem Word.add_one_add_ofNat (addr : Word) (n : Nat) :
    addr + 1 + BitVec.ofNat 32 n = addr + BitVec.ofNat 32 (n + 1) := by
  rw [Nat.add_comm, ← add_ofNat_add]
  rfl

theorem Word.toInt_ofNat {n : Nat} (h : n < 2 ^ 31) : (BitVec.ofNat 32 n).toInt = n := by
  have hn : (BitVec.ofNat 32 n).toNat = n := Nat.mod_eq_of_lt (by omega)
  rw [BitVec.toInt_eq_toNat_of_lt (by omega), hn]

-- Addresses in a row are known from how far they are from the first.
theorem Word.within_add_ofNat {addr : Word} {len n : Nat} (h : addr.toNat + len ≤ addressLimit)
    (hn : n < len) :
    (addr + BitVec.ofNat 32 n).Within addr len ∧
      (addr + BitVec.ofNat 32 n).toNat - addr.toNat = n := by
  have ha : (addr + BitVec.ofNat 32 n).toNat = addr.toNat + n := toNat_add_ofNat (by omega)
  exact ⟨⟨by rw [BitVec.le_def]; omega, by omega⟩, by omega⟩

-- Whether the `size` bytes from `base` on hold all of the `len` bytes from an address on.
def Word.Spans (base : Word) (size : Nat) (addr : Word) (len : Nat) : Prop :=
  base ≤ addr ∧ addr.toNat + len ≤ base.toNat + size

instance (base : Word) (size : Nat) (addr : Word) (len : Nat) :
    Decidable (base.Spans size addr len) :=
  inferInstanceAs (Decidable (_ ∧ _))

theorem Word.Spans.within {base addr a : Word} {size len : Nat} (h : base.Spans size addr len)
    (ha : a.Within addr len) : a.Within base size := by
  have ⟨hle, hlt⟩ := h
  have ⟨hale, halt⟩ := ha
  exact ⟨BitVec.le_trans hle hale, by omega⟩

theorem Word.Spans.mono {base addr : Word} {size size' len : Nat} (h : base.Spans size addr len)
    (hs : size ≤ size') : base.Spans size' addr len :=
  ⟨h.left, Nat.le_trans h.right (Nat.add_le_add_left hs _)⟩

namespace Region

variable {r : Region} {a addr : Word} {len : Nat} {bs : List Byte} {b : Byte}

theorem covers_of_byte? (h : r.byte? a = some b) : r.Covers a 1 := by
  unfold byte? at h
  split at h
  case isFalse => cases h
  case isTrue hle =>
    have ⟨hlt, _⟩ := Array.getElem?_eq_some_iff.mp h
    refine ⟨hle, ?_⟩
    rw [BitVec.le_def] at hle
    simp only [offset, stop] at hlt ⊢
    omega

theorem exists_byte? (h : r.Covers a 1) : ∃ b, r.byte? a = some b := by
  have ⟨hle, hlt⟩ := h
  have hoff : r.offset a < r.bytes.size := by
    rw [BitVec.le_def] at hle
    simp only [offset, stop] at hlt ⊢
    omega
  exact ⟨r.bytes[r.offset a], by rw [byte?, if_pos hle, Array.getElem?_eq_getElem hoff]⟩

-- The bytes of a region are those at the addresses from its base on.
theorem byte?_add_ofNat {n : Nat} (h : r.stop ≤ addressLimit) (hn : n < r.bytes.size) :
    r.Covers (r.base + BitVec.ofNat 32 n) 1 ∧
      r.byte? (r.base + BitVec.ofNat 32 n) = r.bytes[n]? := by
  have ⟨⟨hle, hlt⟩, hoff⟩ := Word.within_add_ofNat h hn
  exact ⟨⟨hle, hlt⟩, by rw [byte?, if_pos hle, offset, hoff]⟩

theorem Alike.eq_of_byte?_eq {on : Access → Prop} {r' : Region} (h : r.Alike on r')
    (hlim : r.stop ≤ addressLimit) (hb : ∀ a, r.Covers a 1 → r'.byte? a = r.byte? a) : r' = r := by
  have hlim' : r'.stop ≤ addressLimit := by rwa [stop, h.base, h.size]
  have hbytes : r'.bytes = r.bytes := by
    refine Array.ext_getElem? fun n => ?_
    by_cases hn : n < r.bytes.size
    case neg =>
      rw [Array.getElem?_eq_none (by rw [h.size]; omega), Array.getElem?_eq_none (by omega)]
    case pos =>
      obtain ⟨hc, hr⟩ := byte?_add_ofNat hlim hn
      obtain ⟨_, hr'⟩ := byte?_add_ofNat hlim' (h.size.symm ▸ hn)
      rw [h.base, hb _ hc, hr] at hr'
      exact hr'.symm
  obtain ⟨base, access, bytes⟩ := r
  obtain ⟨base', access', bytes'⟩ := r'
  simp only [mk.injEq]
  exact ⟨h.base, h.access, hbytes⟩

theorem Covers.of_within (h : r.Covers addr len) (ha : a.Within addr len) : r.Covers a 1 := by
  have ⟨hle, hlt⟩ := h
  have ⟨hale, halt⟩ := ha
  exact ⟨BitVec.le_trans hle hale, by omega⟩

-- The bytes that a region gives are those at the addresses in a row.
theorem getElem?_read (h : r.Covers addr len) (ha : a.Within addr len) :
    (r.read addr len)[a.toNat - addr.toNat]? = r.byte? a := by
  have ⟨hle, hlt⟩ := h
  have ⟨hale, halt⟩ := ha
  rw [byte?, if_pos (BitVec.le_trans hle hale)]
  rw [BitVec.le_def] at hle hale
  simp only [stop] at hlt
  rw [read, Array.getElem?_toList, Array.getElem?_extract, if_pos (by simp only [offset]; omega)]
  congr 1
  simp only [offset]
  omega

theorem byte?_overwrite (h : r.Covers addr bs.length) :
    (r.overwrite addr bs).byte? a =
      if a.Within addr bs.length then bs[a.toNat - addr.toNat]? else r.byte? a := by
  have ⟨hle, hlt⟩ := h
  rw [BitVec.le_def] at hle
  simp only [stop] at hlt
  simp only [byte?, base_overwrite, Word.Within, BitVec.le_def]
  by_cases hb : r.base.toNat ≤ a.toNat
  case neg =>
    rw [if_neg hb, if_neg (by omega), if_neg hb]
  case pos =>
    simp only [if_pos hb, overwrite, getElem?_overwriteFrom, offset]
    by_cases ha : addr.toNat ≤ a.toNat ∧ a.toNat < addr.toNat + bs.length
    case pos =>
      rw [if_pos ha, if_pos (by omega)]
      congr 1
      omega
    case neg => rw [if_neg ha, if_neg (by omega)]

end Region

namespace AddressSpace

variable {s s' : AddressSpace} {a addr : Word} {len : Nat} {required : Access} {bs : List Byte}
  {b : Byte} {q r : Region}

theorem byte?_eq_some_iff (hs : s.WellFormed) :
    s.byte? a = some b ↔ ∃ r ∈ s.regions, r.byte? a = some b := by
  simp only [byte?, Option.bind_eq_some_iff, regionAt?_eq_some_iff hs]
  constructor
  case mp  => exact fun ⟨r, ⟨hr, _⟩, hb⟩ => ⟨r, hr, hb⟩
  case mpr => exact fun ⟨r, hr, hb⟩ => ⟨r, ⟨hr, Region.covers_of_byte? hb⟩, hb⟩

theorem byte?_of_mem (hs : s.WellFormed) (hr : r ∈ s.regions) (hc : r.Covers a 1) :
    s.byte? a = r.byte? a := by
  have ⟨b, hb⟩ := Region.exists_byte? hc
  rw [hb]
  exact (byte?_eq_some_iff hs).mpr ⟨r, hr, hb⟩

theorem byte?_cons (e : Word × Region) (es : List (Word × Region)) (a : Word) :
    byte? ⟨e :: es⟩ a =
      if e.1 ≤ a then if e.2.Covers a 1 then e.2.byte? a else none else byte? ⟨es⟩ a := by
  simp only [byte?, regionAt?, locate?, lookup_cons]
  by_cases he : e.1 ≤ a
  case neg => simp only [he, if_false]
  case pos =>
    simp only [he, if_true]
    split <;> rfl

-- Wherever regions are, bytes at other addresses stay when a region is overwritten that holds all
-- of the new bytes.
theorem byte?_overwrite_of_not_within (h : s.check addr bs.length required = .ok r)
    (ha : ¬a.Within addr bs.length) : (s.overwrite addr bs).byte? a = s.byte? a := by
  have ⟨hl, hc, _⟩ := check_eq_ok_iff.mp h
  have hbyte : (r.overwrite addr bs).byte? a = r.byte? a := by
    rw [Region.byte?_overwrite hc, if_neg ha]
  have hcovers : (r.overwrite addr bs).Covers a 1 ↔ r.Covers a 1 := by
    rw [Region.Covers, Region.stop_overwrite, Region.base_overwrite, Region.Covers]
  obtain ⟨es⟩ := s
  simp only [overwrite]
  clear h
  induction es
  case nil => rfl
  case cons e es ih =>
    rw [lookup_cons] at hl
    unfold overwrite.go
    split
    case isTrue he =>
      cases (by simpa [he] using hl : e.2 = r)
      simp only [byte?_cons, hcovers, hbyte]
    case isFalse he => rw [byte?_cons, byte?_cons, ih (by simpa [he] using hl)]

-- The region that serves a request is overwritten.
theorem mem_overwrite (bs : List Byte) (h : s.lookup addr = some r) :
    r.overwrite addr bs ∈ (s.overwrite addr bs).regions := by
  obtain ⟨es⟩ := s
  simp only [overwrite, regions]
  induction es
  case nil => cases h
  case cons e es ih =>
    rw [lookup_cons] at h
    unfold overwrite.go
    split
    case isTrue he =>
      cases (by simpa [he] using h : e.2 = r)
      exact List.mem_cons_self
    case isFalse he => exact List.mem_cons_of_mem _ (ih (by simpa [he] using h))

theorem byte?_overwrite (hs : s.WellFormed) (h : s.check addr bs.length required = .ok r)
    (a : Word) :
    (s.overwrite addr bs).byte? a =
      if a.Within addr bs.length then bs[a.toNat - addr.toNat]? else s.byte? a := by
  have ⟨hf, hc, _⟩ := check_eq_ok_iff.mp h
  split
  case isTrue ha =>
    have hc' : (r.overwrite addr bs).Covers a 1 := by
      have ⟨hle, hlt⟩ := hc.of_within ha
      exact ⟨hle, by rwa [Region.stop_overwrite]⟩
    rw [byte?_of_mem (wellFormed_overwrite hs addr bs) (mem_overwrite bs hf) hc',
      Region.byte?_overwrite hc, if_pos ha]
  case isFalse ha => exact byte?_overwrite_of_not_within h ha

-- Memory is known from where its regions are and what its bytes are.
theorem eq_of_byte?_eq {on : Access → Prop} (hs : s.WellFormed) (h : s.Alike on s')
    (hb : ∀ a, s'.byte? a = s.byte? a) : s' = s := by
  have hs' := hs.alike h
  have hentry i (hi' : i < s'.entries.length) (hi : i < s.entries.length) :
      s'.entries[i] = s.entries[i] := by
    have ⟨hkey, hr⟩ : _ ∧ (s.entries[i]).2.Alike on s'.entries[i].2 := h.get hi hi'
    have hm : s.entries[i].2 ∈ s.regions := List.mem_map_of_mem (List.getElem_mem hi)
    have hm' : s'.entries[i].2 ∈ s'.regions := List.mem_map_of_mem (List.getElem_mem hi')
    have hbyte a (hc : s.entries[i].2.Covers a 1) :
        s'.entries[i].2.byte? a = s.entries[i].2.byte? a := by
      rw [← byte?_of_mem hs hm hc, ← hb a, byte?_of_mem hs' hm' (hr.covers_iff.mpr hc)]
    exact Prod.ext hkey (hr.eq_of_byte?_eq (hs.paged _ hm).limit hbyte)
  obtain ⟨es⟩ := s
  obtain ⟨es'⟩ := s'
  exact congrArg _ (List.ext_getElem h.length_eq.symm hentry)

theorem byte?_insert {key : Word} (hs : s.WellFormed) (hs' : (s.insert key q).WellFormed)
    (hk : key ∉ s.keys) :
    (s.insert key q).byte? a = some b ↔ q.byte? a = some b ∨ s.byte? a = some b := by
  simp [byte?_eq_some_iff hs, byte?_eq_some_iff hs', mem_insert hk]

-- Where a region can be mapped, there are no bytes before.
theorem byte?_of_free (hs : s.WellFormed) {base : Word} (hf : s.Free base len)
    (ha : base.Spans (pageCeil len) a 1) : s.byte? a = none := by
  refine Option.eq_none_iff_forall_ne_some.mpr fun b hb => ?_
  have ⟨r, hr, hrb⟩ := (byte?_eq_some_iff hs).mp hb
  have ⟨hle, hlt⟩ := Region.covers_of_byte? hrb
  have ⟨hbase, hstop⟩ := ha
  rw [BitVec.le_def] at hle hbase
  have := hf.apart r hr
  omega

section Mapped

-- Whether one region holds all of `len` bytes from an address on.
def Mapped (s : AddressSpace) (addr : Word) (len : Nat) : Prop :=
  ∃ r ∈ s.regions, r.Covers addr len

variable {base : Word} {n : Nat} {access : Access}

theorem not_mapped_empty : ¬empty.Mapped addr n :=
  nofun

theorem mapped_iff_spans : s.Mapped addr n ↔ ∃ p ∈ s.spans, p.1.Spans p.2 addr n := by
  simp [Mapped, spans, Region.Covers, Region.stop, Word.Spans]

theorem Alike.mapped_iff {on : Access → Prop} (h : s.Alike on s') :
    s'.Mapped addr n ↔ s.Mapped addr n := by
  rw [mapped_iff_spans, mapped_iff_spans, h.spans_eq]

theorem check_of_not_mapped (h : ¬s.Mapped addr n) :
    s.check addr n required = .error (.unmapped addr n) := by
  unfold check
  split
  case h_1 => rfl
  case h_2 r hl =>
    unfold locate? at hl
    split at hl
    case h_2 => cases hl
    case h_1 hf =>
      split at hl
      case isFalse => cases hl
      case isTrue hc => exact absurd ⟨_, mem_of_lookup hf, hc⟩ h

theorem exists_check (hs : s.WellFormed) (h : s.Mapped addr n) (hn : 0 < n) :
    ∃ r, s.check addr n .none = .ok r := by
  have ⟨r, hr, hc⟩ := h
  have hl := lookup_of_covers hs hr hn hc
  exact ⟨r, check_eq_ok_iff.mpr ⟨hl, hc, Access.allows_none _⟩⟩

theorem Mapped.of_spans {size : Nat} (h : s.Mapped base size) (ha : base.Spans size addr n) :
    s.Mapped addr n := by
  have ⟨r, hr, hle, hlt⟩ := h
  have ⟨hale, halt⟩ := ha
  exact ⟨r, hr, BitVec.le_trans hle hale, by omega⟩

-- Bytes that one region holds are read as they are one by one.
theorem exists_read (hs : s.WellFormed) (h : s.Mapped addr n) (hn : 0 < n)
    (hlt : n < addressLimit) :
    ∃ bs, s.read addr n .none = .ok bs ∧ bs.length = n ∧
      ∀ a, a.Within addr n → s.byte? a = bs[a.toNat - addr.toNat]? := by
  have ⟨r, hcheck⟩ := exists_check hs h hn
  have ⟨hl, hc, _⟩ := check_eq_ok_iff.mp hcheck
  refine ⟨r.read addr n, read_of_check hlt hcheck, Region.length_read hc, fun a ha => ?_⟩
  rw [Region.getElem?_read hc ha]
  exact byte?_of_mem hs (mem_of_lookup hl) (hc.of_within ha)

theorem isSome_byte?_iff (hs : s.WellFormed) : (s.byte? addr).isSome ↔ s.Mapped addr 1 := by
  rw [Option.isSome_iff_exists]
  constructor
  case mp =>
    intro ⟨b, hb⟩
    have ⟨r, hr, hrb⟩ := (byte?_eq_some_iff hs).mp hb
    exact ⟨r, hr, Region.covers_of_byte? hrb⟩
  case mpr =>
    intro ⟨r, hr, hc⟩
    rw [byte?_of_mem hs hr hc]
    exact Region.exists_byte? hc

-- Where regions are alike, it is enough to compare what bytes there are.
theorem Alike.byte?_eq {on : Access → Prop} (h : s.Alike on s') (hs : s.WellFormed)
    (hb : (s'.byte? addr).getD 0 = (s.byte? addr).getD 0) : s'.byte? addr = s.byte? addr := by
  have hm : (s'.byte? addr).isSome ↔ (s.byte? addr).isSome := by
    rw [isSome_byte?_iff hs, isSome_byte?_iff (hs.alike h), h.mapped_iff]
  cases hx : s.byte? addr <;> cases hx' : s'.byte? addr <;> simp_all

theorem Mapped.limit (hs : s.WellFormed) (h : s.Mapped addr n) : addr.toNat + n ≤ addressLimit := by
  have ⟨r, hr, _, hlt⟩ := h
  have := (hs.paged r hr).limit
  omega

theorem peekWord_of_not_mapped (h : ¬s.Mapped addr 4) :
    s.peekWord addr = .error (.unmapped addr 4) := by
  rw [peekWord, read, checkBuffer_of_lt (lt_addressLimit (by decide)), check_of_not_mapped h]
  rfl

theorem exists_peekWord (hs : s.WellFormed) (h : s.Mapped addr 4) :
    ∃ w, s.peekWord addr = .ok w ∧
      ∀ a, a.Within addr 4 → s.byte? a = w.toBytes[a.toNat - addr.toNat]? := by
  have ⟨bs, hbs, hlen, hbytes⟩ := exists_read hs h (by decide) (lt_addressLimit (by decide))
  refine ⟨.ofBytes bs, by rw [peekWord, hbs]; rfl, ?_⟩
  rwa [Word.toBytes_ofBytes hlen]

theorem mapped_of_peekWord {w : Word} (h : s.peekWord addr = .ok w) : s.Mapped addr 4 := by
  by_contra hm
  cases h.symm.trans (peekWord_of_not_mapped hm)

theorem byte?_of_peekWord (hs : s.WellFormed) {w : Word} (h : s.peekWord addr = .ok w)
    (ha : a.Within addr 4) : s.byte? a = w.toBytes[a.toNat - addr.toNat]? := by
  have ⟨w', hw', hbytes⟩ := exists_peekWord hs (mapped_of_peekWord h)
  cases h.symm.trans hw'
  exact hbytes a ha

-- A word is known from the bytes at its four addresses.
theorem peekWord_eq (hs : s.WellFormed) (h : s.Mapped addr 4) {w : Word}
    (hw : ∀ a, a.Within addr 4 → s.byte? a = w.toBytes[a.toNat - addr.toNat]?) :
    s.peekWord addr = .ok w := by
  have ⟨w', hw', hbytes⟩ := exists_peekWord hs h
  have he : w'.toBytes = w.toBytes := by
    refine List.ext_getElem? fun n => ?_
    by_cases hn : n < 4
    case neg =>
      rw [List.getElem?_eq_none (by simpa using hn), List.getElem?_eq_none (by simpa using hn)]
    case pos =>
      have ⟨ha, hsub⟩ := Word.within_add_ofNat (h.limit hs) hn
      have := (hbytes _ ha).symm.trans (hw _ ha)
      rwa [hsub] at this
  rw [hw', ← Word.ofBytes_toBytes w', he, Word.ofBytes_toBytes]

theorem peekWord_congr {on : Access → Prop} (hs : s.WellFormed) (h : s.Alike on s')
    (hb : ∀ a, a.Within addr 4 → s'.byte? a = s.byte? a) : s'.peekWord addr = s.peekWord addr := by
  by_cases hm : s.Mapped addr 4
  case neg => rw [peekWord_of_not_mapped hm, peekWord_of_not_mapped (mt h.mapped_iff.mp hm)]
  case pos =>
    have ⟨w, hw, hbytes⟩ := exists_peekWord hs hm
    rw [hw]
    exact peekWord_eq (hs.alike h) (h.mapped_iff.mpr hm) fun a ha => (hb a ha).trans (hbytes a ha)

theorem mapped_allocate (hs : s.WellFormed) (h : s.allocate base len access = .ok s') :
    s'.Mapped addr n ↔ base.Spans (pageCeil len) addr n ∨ s.Mapped addr n := by
  have hf := free_of_allocate h
  rw [allocate_of_free hf] at h
  cases h
  simp [Mapped, mem_insert (hf.not_mem_keys hs), Region.Covers, Region.stop, Word.Spans]

end Mapped

end AddressSpace

end RV32IM
