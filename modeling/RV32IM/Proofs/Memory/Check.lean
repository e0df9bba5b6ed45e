import Mathlib
import RV32IM.Memory.AddressSpace

-- What requests to memory check. One is served by the region that it is checked against, bytes are
-- stored as a whole or not at all, and requests byte by byte are requests for one byte each.

namespace RV32IM.AddressSpace

variable {s s' : AddressSpace} {addr : Word} {len : Nat} {required : Access} {r : Region}
  {bs : List Byte}

theorem floor?_cons (e : Word × Region) (es : List (Word × Region)) (addr : Word) :
    floor? ⟨e :: es⟩ addr = if e.1 ≤ addr then some e else floor? ⟨es⟩ addr := by
  rw [floor?, List.find?_cons]
  by_cases h : e.1 ≤ addr <;> simp [h, floor?]

theorem le_of_floor? {e : Word × Region} (h : s.floor? addr = some e) : e.1 ≤ addr := by
  simpa using List.find?_some h

theorem lookup_cons (e : Word × Region) (es : List (Word × Region)) (addr : Word) :
    lookup ⟨e :: es⟩ addr = if e.1 ≤ addr then some e.2 else lookup ⟨es⟩ addr := by
  rw [lookup, floor?_cons]
  split <;> rfl

theorem mem_of_lookup (h : s.lookup addr = some r) : r ∈ s.regions := by
  have ⟨_, he, hr⟩ := Option.map_eq_some_iff.mp h
  exact hr ▸ List.mem_map_of_mem (List.mem_of_find?_eq_some he)

theorem check_eq_ok_iff :
    s.check addr len required = .ok r ↔
      s.lookup addr = some r ∧ r.Covers addr len ∧ r.access.allows required := by
  unfold check locate?
  split
  case h_1 h => grind
  case h_2 h => grind

-- A request for a buffer is served only if all of its length is checked.
theorem checkBuffer_eq_ok_iff :
    s.checkBuffer addr len required = .ok r ↔
      len < addressLimit ∧ s.check addr len required = .ok r := by
  unfold checkBuffer
  by_cases hlen : len < addressLimit
  case pos =>
    rw [Nat.mod_eq_of_lt hlen]
    cases s.check addr len required <;> simp [hlen]
  case neg => cases s.check addr (len % addressLimit) required <;> simp [hlen]

theorem checkBuffer_of_lt (h : len < addressLimit) :
    s.checkBuffer addr len required = s.check addr len required := by
  rw [checkBuffer, Nat.mod_eq_of_lt h]
  cases s.check addr len required <;> simp [h]

theorem check_of_read (h : s.read addr len required = .ok bs) :
    ∃ r, s.check addr len required = .ok r ∧ r.read addr len = bs := by
  cases hc : s.checkBuffer addr len required
  case error => simp [read, hc, Except.map] at h
  case ok r =>
    rw [read, hc] at h
    exact ⟨r, (checkBuffer_eq_ok_iff.mp hc).right, Except.ok.inj h⟩

theorem read_of_check (hl : len < addressLimit) (h : s.check addr len required = .ok r) :
    s.read addr len required = .ok (r.read addr len) := by
  rw [read, checkBuffer_of_lt hl, h]
  rfl

theorem check_of_write {s' : AddressSpace} (h : s.write addr bs required = .ok s') :
    ∃ r, s.check addr bs.length required = .ok r ∧ s' = s.overwrite addr bs := by
  cases hc : s.checkBuffer addr bs.length required
  case error => simp [write, hc, Except.map] at h
  case ok r =>
    rw [write, hc] at h
    exact ⟨r, (checkBuffer_eq_ok_iff.mp hc).right, (Except.ok.inj h).symm⟩

theorem length_lt_of_write {s' : AddressSpace} (h : s.write addr bs required = .ok s') :
    bs.length < addressLimit := by
  cases hc : s.checkBuffer addr bs.length required
  case error => simp [write, hc, Except.map] at h
  case ok    => exact (checkBuffer_eq_ok_iff.mp hc).left

theorem write_of_check (hl : bs.length < addressLimit)
    (h : s.check addr bs.length required = .ok r) :
    s.write addr bs required = .ok (s.overwrite addr bs) := by
  rw [write, checkBuffer_of_lt hl, h]
  rfl

section Bus

theorem readBytes_eq (s : AddressSpace) (addr : Word) (n : Nat) :
    Bus.readBytes s addr n = s.load addr n :=
  rfl

-- Bytes that are stored are all checked first.
theorem check_of_writeBytes (h : Bus.writeBytes s addr bs = (.ok (), s')) :
    ∃ r, s.check addr bs.length .write = .ok r ∧ s' = s.overwrite addr bs := by
  cases hc : s.checkBuffer addr bs.length .write
  case error => simp [Bus.writeBytes, settleStore, hc] at h
  case ok r =>
    simp only [Bus.writeBytes, settleStore, hc, Prod.mk.injEq, true_and] at h
    exact ⟨r, (checkBuffer_eq_ok_iff.mp hc).right, h.symm⟩

instance : Bus.Atomic AddressSpace where
  writeBytes_error s addr bs e h := by
    cases hc : s.checkBuffer addr bs.length .write
    case error => simp only [Bus.writeBytes, settleStore, hc]
    case ok    => simp [Bus.writeBytes, settleStore, hc] at h

theorem loadEach_zero (s : AddressSpace) (addr : Word) : s.loadEach addr 0 = .ok [] :=
  rfl

theorem loadEach_succ (s : AddressSpace) (addr : Word) (n : Nat) :
    s.loadEach addr (n + 1) =
      match s.load addr 1 with
      | .error e => .error e
      | .ok b => (s.loadEach (addr + 1) n).map (b ++ ·) := by
  simp only [loadEach, Bus.readEach, Bus.readByte]
  cases hl : s.load addr 1
  case error => rfl
  case ok bs =>
    have ⟨r, hc, hr⟩ := check_of_read hl
    have hlen := Region.length_read (check_eq_ok_iff.mp hc).right.left
    obtain ⟨b, hb⟩ := List.length_eq_one_iff.mp (hr ▸ hlen)
    simp only [hb]
    rfl

theorem storeEach_nil (s : AddressSpace) (addr : Word) : s.storeEach addr [] = (.ok (), s) :=
  rfl

theorem storeEach_cons (s : AddressSpace) (addr : Word) (b : Byte) (bs : List Byte) :
    s.storeEach addr (b :: bs) =
      match s.check addr 1 .write with
      | .error e => (.error e, s)
      | .ok _ => (s.overwrite addr [b]).storeEach (addr + 1) bs := by
  have hone : Bus.writeByte s addr b =
      match s.check addr 1 .write with
      | .error e => (.error e, s)
      | .ok _ => (.ok (), s.overwrite addr [b]) := by
    simp only [Bus.writeByte, settleStore, List.length_singleton]
    cases hc : s.check addr 1 .write
    all_goals rw [checkBuffer_of_lt (lt_addressLimit (by decide)), hc]
  rw [storeEach, Bus.writeEach, hone]
  cases s.check addr 1 .write <;> rfl

end Bus

-- A word is fetched from one region that may be executed and that holds all of its bytes.
theorem exists_of_fetch_eq_ok {w : Word} (h : s.fetch addr = .ok w) :
    ∃ r ∈ s.regions, r.access.allows .execute ∧ r.Covers addr 4 ∧ .ofBytes (r.read addr 4) = w := by
  cases hb : s.read addr 4 .execute
  case error => simp [fetch, hb, Except.map] at h
  case ok bs =>
    rw [fetch, hb] at h
    have ⟨r, hc, hr⟩ := check_of_read hb
    have ⟨hl, hcov, ha⟩ := check_eq_ok_iff.mp hc
    exact ⟨r, mem_of_lookup hl, ha, hcov, hr ▸ Except.ok.inj h⟩

end RV32IM.AddressSpace
