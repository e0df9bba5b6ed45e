import RV32IM.Proofs.Memory.Bytes
import RV32IM.Proofs.Memory.Requests

-- Memory as a row of bytes that are known from what was stored there. A request for bytes in a row
-- is granted if one region has them all and permits it, and otherwise changes nothing. What is read
-- was stored last at each address, however wide the accesses were, and is zero where nothing was.

namespace RV32IM

-- Strings of bytes that were stored and where they begin, the latest first.
abbrev Journal := List (Word × List Byte)

namespace Journal

-- The byte that a string has for an address.
def byteOf? (a : Word) : Word × List Byte → Option Byte
  | (addr, bs) => if a.Within addr bs.length then bs[a.toNat - addr.toNat]? else none

-- The byte that was stored last at an address; zero if there is none.
def byte (j : Journal) (a : Word) : Byte :=
  (j.findSome? (byteOf? a)).getD 0

-- The bytes at addresses in a row, which may wrap around.
def bytes (j : Journal) (addr : Word) (n : Nat) : List Byte :=
  (List.range n).map fun i => j.byte (addr + BitVec.ofNat 32 i)

variable {j : Journal} {a addr : Word} {bs : List Byte} {n : Nat}

theorem byte_cons (j : Journal) (addr : Word) (bs : List Byte) (a : Word) :
    byte ((addr, bs) :: j) a =
      ((if a.Within addr bs.length then bs[a.toNat - addr.toNat]? else none).getD (j.byte a)) := by
  simp only [byte, List.findSome?_cons, byteOf?]
  split <;> simp_all

@[simp]
theorem length_bytes (j : Journal) (addr : Word) (n : Nat) : (j.bytes addr n).length = n := by
  simp [bytes]

theorem bytes_succ (j : Journal) (addr : Word) (n : Nat) :
    j.bytes addr (n + 1) = j.byte addr :: j.bytes (addr + 1) n := by
  simp only [bytes, List.range_succ_eq_map, List.map_cons, List.map_map, Function.comp_def,
    Word.add_one_add_ofNat]
  simp

-- The number that bytes in a row are, the least significant first.
theorem value_bytes (j : Journal) (addr : Word) (n : Nat) :
    LittleEndian.value (j.bytes addr n) =
      ∑ i ∈ Finset.range n, 256 ^ i * (j.byte (addr + BitVec.ofNat 32 i)).toNat := by
  induction n generalizing addr
  case zero => rfl
  case succ n ih =>
    rw [bytes_succ, LittleEndian.value, ih, Finset.sum_range_succ', Finset.mul_sum, Nat.add_comm]
    congr 1
    case _ =>
      refine Finset.sum_congr rfl fun i _ => ?_
      rw [Nat.pow_succ', Nat.mul_assoc, BitVec.add_assoc, Nat.add_comm i, BitVec.ofNat_add]
      rfl
    case _ => simp

-- Whether memory holds what a journal says of it. Where it has no byte, none was stored.
def Describes (j : Journal) (s : AddressSpace) : Prop :=
  ∀ a, j.byte a = (s.byte? a).getD 0

end Journal

namespace Request

-- What a request puts in place of the bytes that it is about; nothing if it only reads them.
def data : Request → List Byte
  | write _ bs _ | poke _ bs | store _ bs => bs
  | pokeWord _ w => w.toBytes
  | _ => []

-- What a request is answered with, given the bytes that it is about.
def answer (req : Request) (bs : List Byte) : Answer :=
  match req with
  | read .. | load .. => .bytes bs
  | peekWord _ | fetch _ => .word (.ofBytes bs)
  | _ => .done

theorem length_data {req : Request} {e : Extent} (h : req.extent? = some e) :
    req.data = [] ∨ req.data.length = e.len := by
  cases req <;> cases h <;> simp [data]

end Request

namespace AddressSpace

variable {s s' : AddressSpace} {addr base : Word} {len : Nat} {access required : Access}
  {bs : List Byte} {j : Journal} {req : Request} {reqs : List Request} {e : Extent} {r : Region}

section Perform

theorem overwrite_nil (s : AddressSpace) (addr : Word) : s.overwrite addr [] = s := by
  obtain ⟨rs⟩ := s
  rw [overwrite]
  congr
  induction rs
  case nil => rfl
  case cons r rs ih =>
    unfold overwrite.go
    split
    case isTrue  => rfl
    case isFalse => rw [ih]

theorem not_panics (hl : len < addressLimit) : s.panics addr len required = false := by
  simp [panics, hl]

-- All requests for bytes in a row are one: they are checked, and if they pass they read and
-- overwrite.
theorem perform_eq (h : req.extent? = some e) :
    s.perform req =
      if s.panics e.addr e.len e.required then (.panicked, s)
      else match s.checkBuffer e.addr e.len e.required with
      | .ok r => (.ok (req.answer (r.read e.addr e.len)), s.overwrite e.addr req.data)
      | .error err => (.error err, s) := by
  simp only [perform, h]
  congr 1
  cases req
  case allocate | allocateAnywhere | loadEach | storeEach => cases h
  all_goals
    cases h
    simp only [serve, read, write, peekWord, load, fetch, poke, pokeWord, store,
      Word.length_toBytes, Request.answer, Request.data, overwrite_nil]
    split <;> simp_all [settle, Reply.of, Except.map]

theorem perform_eq_error {err : MemoryError} (h : req.extent? = some e) (hl : e.len < addressLimit)
    (hc : s.check e.addr e.len e.required = .error err) : s.perform req = (.error err, s) := by
  rw [perform_eq h, not_panics hl, checkBuffer_of_lt hl, hc]
  rfl

theorem perform_eq_ok (h : req.extent? = some e) (hl : e.len < addressLimit)
    (hc : s.check e.addr e.len e.required = .ok r) :
    s.perform req = (.ok (req.answer (r.read e.addr e.len)), s.overwrite e.addr req.data) := by
  rw [perform_eq h, not_panics hl, checkBuffer_of_lt hl, hc]
  rfl

-- How a request ends: it is served by one region, or it is not and memory stays as it is.
theorem perform_cases_of_extent? (h : req.extent? = some e) :
    (∃ r, e.len < addressLimit ∧ s.check e.addr e.len e.required = .ok r ∧
        s.perform req = (.ok (req.answer (r.read e.addr e.len)), s.overwrite e.addr req.data)) ∨
      (∀ a, (s.perform req).fst ≠ .ok a) ∧ (s.perform req).snd = s := by
  cases hc : s.checkBuffer e.addr e.len e.required
  case ok r =>
    have ⟨hl, hr⟩ := checkBuffer_eq_ok_iff.mp hc
    exact .inl ⟨r, hl, hr, perform_eq_ok h hl hr⟩
  case error err =>
    refine .inr ?_
    rw [perform_eq h, hc]
    split <;> exact ⟨nofun, rfl⟩

theorem exists_check_of_perform {a : Answer} (h : req.extent? = some e)
    (hp : (s.perform req).fst = .ok a) :
    ∃ r, e.len < addressLimit ∧ s.check e.addr e.len e.required = .ok r ∧
      a = req.answer (r.read e.addr e.len) ∧ (s.perform req).snd = s.overwrite e.addr req.data := by
  cases s.perform_cases_of_extent? h
  case inr hno => exact absurd hp (hno.left a)
  case inl hok =>
    have ⟨r, hl, hc, hserve⟩ := hok
    rw [hserve] at hp ⊢
    cases hp
    exact ⟨r, hl, hc, rfl, rfl⟩

theorem check_eq_ok_iff_mem (hs : s.WellFormed) (hn : 0 < len) :
    s.check addr len required = .ok r ↔
      r ∈ s.regions ∧ r.Covers addr len ∧ r.access.allows required := by
  rw [check_eq_ok_iff]
  constructor
  case mp  => exact fun ⟨hl, hc, ha⟩ => ⟨mem_of_lookup hl, hc, ha⟩
  case mpr => exact fun ⟨hr, hc, ha⟩ => ⟨lookup_of_covers hs hr hn hc, hc, ha⟩

theorem check_of_not_allows (hs : s.WellFormed) (hn : 0 < len) (hr : r ∈ s.regions)
    (hc : r.Covers addr len) (ha : ¬r.access.allows required) :
    s.check addr len required = .error (.denied addr required r.access) := by
  rw [check, (locate?_eq_some_iff hs hn).mpr ⟨hr, hc⟩]
  exact if_neg ha

-- The bytes of a request that is granted are replaced and no others are.
theorem byte?_overwrite_data (hs : s.WellFormed) (h : req.extent? = some e)
    (hc : s.check e.addr e.len e.required = .ok r) (a : Word) :
    (s.overwrite e.addr req.data).byte? a =
      if a.Within e.addr req.data.length then req.data[a.toNat - e.addr.toNat]?
      else s.byte? a := by
  rcases Request.length_data h with hd | hd
  case inl =>
    have hna : ¬a.Within e.addr 0 := fun ⟨hle, hlt⟩ => by
      rw [BitVec.le_def] at hle
      omega
    rw [hd, overwrite_nil, List.length_nil, if_neg hna]
  case inr =>
    rw [← hd] at hc
    exact byte?_overwrite hs hc a

end Perform

section Journal

-- What is stored byte by byte, up to the first byte that is refused.
def storedEach (s : AddressSpace) (addr : Word) : List Byte → Journal
  | [] => []
  | b :: bs =>
    match s.store addr [b] with
    | .ok s => storedEach s (addr + 1) bs ++ [(addr, [b])]
    | .error _ => []

-- What a request stores.
def stored (s : AddressSpace) (req : Request) : Journal :=
  match req with
  | .storeEach addr bs => s.storedEach addr bs
  | req =>
    match req.extent?, (s.perform req).fst with
    | some e, .ok _ => [(e.addr, req.data)]
    | _, _ => []

-- What requests store that are made one after the other.
def journal (s : AddressSpace) : List Request → Journal
  | [] => []
  | req :: reqs => journal (s.perform req).snd reqs ++ s.stored req

theorem describes_overwrite (hj : j.Describes s)
    (hb : ∀ a, (s.overwrite addr bs).byte? a =
      if a.Within addr bs.length then bs[a.toNat - addr.toNat]? else s.byte? a) :
    Journal.Describes ((addr, bs) :: j) (s.overwrite addr bs) := by
  intro a
  rw [Journal.byte_cons, hb, hj a]
  split
  case isFalse => rfl
  case isTrue ha =>
    have ⟨hle, hlt⟩ := ha
    rw [BitVec.le_def] at hle
    rw [List.getElem?_eq_getElem (by omega)]
    rfl

theorem describes_stored (hs : s.WellFormed) (hj : j.Describes s) (h : req.extent? = some e) :
    Journal.Describes (s.stored req ++ j) (s.perform req).snd := by
  have hstored : s.stored req =
      match (s.perform req).fst with
      | .ok _ => [(e.addr, req.data)]
      | .error _ | .panicked => [] := by
    cases req
    case storeEach => cases h
    all_goals
      simp only [stored, h]
      generalize (s.perform _).fst = x
      cases x <;> rfl
  cases s.perform_cases_of_extent? h
  case inl hok =>
    have ⟨r, _, hc, hserve⟩ := hok
    rw [hstored, hserve]
    exact describes_overwrite hj (byte?_overwrite_data hs h hc)
  case inr hno =>
    have ⟨hne, hsame⟩ := hno
    rw [hstored, hsame]
    cases hp : (s.perform req).fst
    case ok a => exact absurd hp (hne a)
    all_goals exact hj

theorem describes_storedEach (hs : s.WellFormed) (hj : j.Describes s) :
    Journal.Describes (s.storedEach addr bs ++ j) (s.storeEach addr bs).snd := by
  induction bs generalizing s addr j
  case nil => exact hj
  case cons b bs ih =>
    have hstore : s.store addr [b] = (s.check addr 1 .write).map fun _ => s.overwrite addr [b] := by
      rw [store, write, List.length_singleton, checkBuffer_of_lt (lt_addressLimit (by decide))]
    rw [storedEach, storeEach_cons, hstore]
    cases hc : s.check addr 1 .write
    case error => exact hj
    case ok =>
      rw [← List.length_singleton (a := b)] at hc
      have hb := describes_overwrite hj (byte?_overwrite hs hc)
      simpa [Except.map] using ih (wellFormed_overwrite hs addr [b]) hb

-- A region is mapped where nothing was stored, and holds zeros.
theorem describes_allocate (hs : s.WellFormed) (hj : j.Describes s)
    (h : s.allocate base len access = .ok s') : j.Describes s' := by
  have hf := free_of_allocate h
  have hs' := wellFormed_allocate hs h
  have hk := hf.not_mem_keys hs
  rw [allocate_of_free hf] at h
  cases h
  intro a
  rw [hj a]
  cases hb : s.byte? a
  case some b => rw [(byte?_insert hs hs' hk).mpr (.inr hb)]
  case none =>
    cases hb' : (s.insert base _).byte? a
    case none => rfl
    case some b' =>
      have hz := ((byte?_insert hs hs' hk).mp hb').resolve_right (by simp [hb])
      simp only [Region.byte?] at hz
      split at hz
      case isFalse => cases hz
      case isTrue =>
        rw [Array.getElem?_replicate] at hz
        split at hz
        case isTrue  => simp_all
        case isFalse => cases hz

theorem describes_perform (hs : s.WellFormed) (hj : j.Describes s) (req : Request) :
    Journal.Describes (s.stored req ++ j) (s.perform req).snd := by
  cases req
  case allocate base len access =>
    exact settle_of hj fun _ h => describes_allocate hs hj h
  case allocateAnywhere len access =>
    exact settle_of hj fun _ h =>
      describes_allocate hs hj (allocate_of_allocateAnywhere h)
  case loadEach => exact hj
  case storeEach => exact describes_storedEach hs hj
  all_goals exact describes_stored hs hj rfl

theorem describes_performAll (hs : s.WellFormed) (hj : j.Describes s) (reqs : List Request) :
    Journal.Describes (s.journal reqs ++ j) (s.performAll reqs) := by
  induction reqs generalizing s j
  case nil => exact hj
  case cons req reqs ih =>
    have := ih (wellFormed_perform hs req) (describes_perform hs hj req)
    rwa [← List.append_assoc] at this

theorem describes_empty : Journal.Describes [] empty :=
  fun _ => rfl

theorem describes_journal (reqs : List Request) :
    Journal.Describes (empty.journal reqs) (empty.performAll reqs) := by
  have := describes_performAll wellFormed_empty describes_empty reqs
  rwa [List.append_nil] at this

-- What a region has at addresses in a row is what was stored there.
theorem read_eq_bytes (hs : s.WellFormed) (hj : j.Describes s) (hr : r ∈ s.regions)
    (hc : r.Covers addr len) : r.read addr len = j.bytes addr len := by
  apply List.ext_getElem?
  intro i
  by_cases hi : i < len
  case neg =>
    rw [List.getElem?_eq_none (by simpa [Region.length_read hc] using hi),
      List.getElem?_eq_none (by simpa using hi)]
  case pos =>
    have ⟨hw, hoffset⟩ := Word.within_add_ofNat (Mapped.limit hs ⟨r, hr, hc⟩) hi
    have hcov := hc.of_within hw
    have hget := Region.getElem?_read hc hw
    rw [hoffset] at hget
    have ⟨b, hb⟩ := Region.exists_byte? hcov
    have hjb := hj (addr + BitVec.ofNat 32 i)
    rw [byte?_of_mem hs hr hcov, hb] at hjb
    rw [hget, hb, Journal.bytes, List.getElem?_map, List.getElem?_range hi, Option.map_some, hjb]
    rfl

theorem loadEach_eq_bytes (hs : s.WellFormed) (hj : j.Describes s)
    (h : s.loadEach addr len = .ok bs) : bs = j.bytes addr len := by
  induction len generalizing addr bs
  case zero =>
    cases h
    rfl
  case succ n ih =>
    rw [loadEach_succ] at h
    split at h
    case h_1 => cases h
    case h_2 b hb =>
      have ⟨bs', hbs', he⟩ := exists_of_map_eq_ok h
      have ⟨r, hc, hr⟩ := check_of_read hb
      have ⟨hr', hcov, _⟩ := (check_eq_ok_iff_mem hs Nat.one_pos).mp hc
      rw [← he, ih hbs', ← hr, read_eq_bytes hs hj hr' hcov, Journal.bytes_succ,
        Journal.bytes_succ]
      rfl

end Journal

-- How memory that a journal describes serves a request for bytes in a row.
structure Serves (s : AddressSpace) (j : Journal) (req : Request) (e : Extent) : Prop where
  granted : (∃ a, (s.perform req).fst = .ok a) ↔
    ∃ r ∈ s.regions, r.Covers e.addr e.len ∧ r.access.allows e.required
  -- Bytes in a row do not go on at the other end of memory.
  limit : s.Mapped e.addr e.len → e.addr.toNat + e.len ≤ addressLimit
  unmapped : e.len < addressLimit → ¬s.Mapped e.addr e.len →
    s.perform req = (.error (.unmapped e.addr e.len), s)
  -- No region is as long as all of memory. A request for so many bytes is told of fewer, or panics.
  oversized : addressLimit ≤ e.len → ¬s.Mapped e.addr e.len ∧
    s.perform req = match s.check e.addr (e.len % addressLimit) e.required with
      | .ok _ => (.panicked, s)
      | .error err => (.error err, s)
  denied : ∀ r ∈ s.regions, r.Covers e.addr e.len → ¬r.access.allows e.required →
    s.perform req = (.error (.denied e.addr e.required r.access), s)
  answer : ∀ a, (s.perform req).fst = .ok a → a = req.answer (j.bytes e.addr e.len)
  layout : s.Alike (fun _ => False) (s.perform req).snd
  -- A request that brings no bytes along overwrites none.
  bytes : ∀ a, (s.perform req).fst = .ok a → ∀ x, (s.perform req).snd.byte? x =
    if x.Within e.addr req.data.length then req.data[x.toNat - e.addr.toNat]? else s.byte? x

theorem length_lt_of_covers (hsize : ∀ r ∈ s.regions, r.bytes.size < addressLimit)
    (hr : r ∈ s.regions) (hc : r.Covers addr len) : len < addressLimit := by
  have hlt := hsize r hr
  have ⟨hle, hstop⟩ := hc
  rw [BitVec.le_def] at hle
  simp only [Region.stop] at hstop
  omega

theorem serves_of_describes (hs : s.WellFormed)
    (hsize : ∀ r ∈ s.regions, r.bytes.size < addressLimit) (hj : j.Describes s)
    (h : req.extent? = some e) (hn : 0 < e.len) : s.Serves j req e where
  granted := by
    constructor
    case mp =>
      rintro ⟨_, hp⟩
      obtain ⟨r, _, hc, _⟩ := exists_check_of_perform h hp
      exact ⟨r, (check_eq_ok_iff_mem hs hn).mp hc⟩
    case mpr =>
      rintro ⟨r, hr⟩
      have hl := length_lt_of_covers hsize hr.left hr.right.left
      have hc := (check_eq_ok_iff_mem hs hn).mpr hr
      exact ⟨_, congrArg Prod.fst (perform_eq_ok h hl hc)⟩
  limit := by
    rintro ⟨r, hr, hc⟩
    exact Nat.le_trans hc.right (hs.paged r hr).limit
  unmapped hl hm := perform_eq_error h hl (check_of_not_mapped hm)
  oversized hl := by
    constructor
    case left =>
      rintro ⟨r, hr, hc⟩
      exact Nat.not_lt.mpr hl (length_lt_of_covers hsize hr hc)
    case right =>
      rw [perform_eq h, panics, checkBuffer]
      cases s.check e.addr (e.len % addressLimit) e.required <;>
        simp [hl, Except.isOk, Except.toBool]
  denied r hr hc ha :=
    perform_eq_error h (length_lt_of_covers hsize hr hc) (check_of_not_allows hs hn hr hc ha)
  answer a hp := by
    obtain ⟨r, _, hc, ha, _⟩ := exists_check_of_perform h hp
    obtain ⟨hr, hcov, _⟩ := (check_eq_ok_iff_mem hs hn).mp hc
    rw [ha, read_eq_bytes hs hj hr hcov]
  layout := by
    cases s.perform_cases_of_extent? h
    case inl hok =>
      obtain ⟨_, _, _, hserve⟩ := hok
      rw [hserve]
      exact alike_overwrite s _ _
    case inr hno =>
      rw [hno.right]
      exact .refl _ s
  bytes a hp := by
    obtain ⟨r, _, hc, _, hs'⟩ := exists_check_of_perform h hp
    rw [hs']
    exact byte?_overwrite_data hs h hc

-- Writes of three widths, of which one overlaps another and one runs past the end of its region.
def overlapping : List Request := [
  .allocate 0x1000 0x1000 .readWrite,
  .pokeWord 0x1000 0x04030201,
  .store 0x1FFF [7, 7],
  .store 0x1002 [9]]

end AddressSpace

end RV32IM
