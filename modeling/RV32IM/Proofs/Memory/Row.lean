import RV32IM.Proofs.Memory.Journal

-- Bytes in a row, at addresses that may wrap around. What is loaded or stored at once is such a
-- row.

namespace RV32IM.AddressSpace

variable {s : AddressSpace} {addr : Word} {n : Nat} {bs bs' : List Byte} {r : Region}
  {required : Access}

-- Whether memory has these bytes from an address on.
def HasBytes (s : AddressSpace) (addr : Word) (bs : List Byte) : Prop :=
  ∀ i b, bs[i]? = some b → s.byte? (addr + BitVec.ofNat 32 i) = some b

theorem hasBytes_nil : s.HasBytes addr [] :=
  nofun

theorem HasBytes.append (h : s.HasBytes addr bs)
    (h' : s.HasBytes (addr + BitVec.ofNat 32 bs.length) bs') : s.HasBytes addr (bs ++ bs') := by
  intro i b hb
  rw [List.getElem?_append] at hb
  split at hb
  case isTrue => exact h i b hb
  case isFalse hi =>
    have hbyte := h' _ b hb
    rwa [Word.add_ofNat_add, Nat.add_sub_cancel' (Nat.le_of_not_lt hi)] at hbyte

-- What memory has at `n` addresses in a row.
def row (s : AddressSpace) (addr : Word) (n : Nat) : List Byte :=
  (List.range n).filterMap fun i => s.byte? (addr + BitVec.ofNat 32 i)

theorem row_succ (s : AddressSpace) (addr : Word) (n : Nat) :
    s.row addr (n + 1) = (s.byte? addr).toList ++ s.row (addr + 1) n := by
  simp only [row, List.range_succ_eq_map, List.filterMap_cons, List.filterMap_map,
    Function.comp_def, ← Word.add_one_add_ofNat]
  cases hb : s.byte? addr <;> simp [hb]

theorem row_of_hasBytes (h : s.HasBytes addr bs) : s.row addr bs.length = bs := by
  induction bs generalizing addr
  case nil => rfl
  case cons b bs ih =>
    have hb : s.byte? addr = some b := by simpa using h 0 b rfl
    have hbs : s.HasBytes (addr + 1) bs := fun i c hc => by
      rw [Word.add_one_add_ofNat]
      exact h (i + 1) c hc
    rw [List.length_cons, row_succ, hb, ih hbs, Option.toList_some, List.singleton_append]

variable (hs : s.WellFormed)

include hs

theorem hasBytes_of_load (h : s.load addr n = .ok bs) : bs.length = n ∧ s.HasBytes addr bs := by
  have ⟨r, hc, hread⟩ := check_of_read h
  have ⟨hl, hr, _⟩ := check_eq_ok_iff.mp hc
  have hmem := mem_of_lookup hl
  subst hread
  refine ⟨Region.length_read hr, fun i b hb => ?_⟩
  have hi : i < n := by
    rw [← Region.length_read hr]
    exact (List.getElem?_eq_some_iff.mp hb).1
  have ⟨hw, hoff⟩ := Word.within_add_ofNat (Mapped.limit hs ⟨r, hmem, hr⟩) hi
  rw [byte?_of_mem hs hmem (hr.of_within hw), ← Region.getElem?_read hr hw, hoff, hb]

-- Bytes that are stored at once are then there in a row.
theorem hasBytes_overwrite (hc : s.check addr bs.length required = .ok r) :
    (s.overwrite addr bs).HasBytes addr bs := by
  intro i b hb
  have hi : i < bs.length := (List.getElem?_eq_some_iff.mp hb).1
  have ⟨hl, hr, _⟩ := check_eq_ok_iff.mp hc
  have ⟨hw, hoff⟩ := Word.within_add_ofNat (Mapped.limit hs ⟨r, mem_of_lookup hl, hr⟩) hi
  rw [byte?_overwrite hs hc, if_pos hw, hoff, hb]

theorem exists_load_iff (hn : 0 < n) (hlt : n < addressLimit) :
    (∃ bs, s.load addr n = .ok bs) ↔
      ∃ r ∈ s.regions, r.Covers addr n ∧ r.access.allows .read := by
  simp only [← check_eq_ok_iff_mem hs hn, load, read, checkBuffer_of_lt hlt]
  cases s.check addr n .read <;> simp [Except.map]

end RV32IM.AddressSpace
