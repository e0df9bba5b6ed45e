import RV32IM.Memory.Access

-- Regions: spans of memory with one set of permissions, made of whole pages.

namespace RV32IM

def pageSize : Nat := 0x1000

def addressLimit : Nat := valueCount 32

theorem addressLimit_eq : addressLimit = 0x100000000 :=
  valueCount_word

theorem lt_addressLimit {n : Nat} (h : n ≤ pageSize) : n < addressLimit :=
  Nat.lt_of_le_of_lt h (by rw [addressLimit_eq]; decide)

-- Replaces elements from an index on. What would lie past the end is dropped.
def overwriteFrom (a : Array Byte) (i : Nat) : List Byte → Array Byte
  | [] => a
  | b :: bs => overwriteFrom (a.setIfInBounds i b) (i + 1) bs

@[simp]
theorem size_overwriteFrom (a : Array Byte) (i : Nat) (bs : List Byte) :
    (overwriteFrom a i bs).size = a.size := by
  induction bs generalizing a i with
  | nil => rfl
  | cons b bs ih => simp [overwriteFrom, ih]

theorem getElem?_overwriteFrom (a : Array Byte) (i : Nat) (bs : List Byte) (j : Nat) :
    (overwriteFrom a i bs)[j]? =
      if i ≤ j ∧ j < i + bs.length ∧ j < a.size then bs[j - i]? else a[j]? := by
  induction bs generalizing a i with
  | nil =>
    simp only [overwriteFrom, List.length_nil, List.getElem?_nil]
    rw [if_neg (by omega)]
  | cons b bs ih =>
    simp only [overwriteFrom, ih, Array.size_setIfInBounds, List.length_cons]
    by_cases hij : i = j
    · subst hij
      by_cases hlt : i < a.size
      · have h₁ : ¬ (i + 1 ≤ i ∧ i < i + 1 + bs.length ∧ i < a.size) := by omega
        have h₂ : i ≤ i ∧ i < i + (bs.length + 1) ∧ i < a.size := by omega
        rw [if_neg h₁, if_pos h₂]
        simp [hlt]
      · have h₁ : ¬ (i + 1 ≤ i ∧ i < i + 1 + bs.length ∧ i < a.size) := by omega
        have h₂ : ¬ (i ≤ i ∧ i < i + (bs.length + 1) ∧ i < a.size) := by omega
        rw [if_neg h₁, if_neg h₂]
        simp [hlt]
    · have hset : (a.setIfInBounds i b)[j]? = a[j]? := by
        simp [hij]
      rw [hset]
      by_cases h : i + 1 ≤ j ∧ j < i + 1 + bs.length ∧ j < a.size
      · have h₂ : i ≤ j ∧ j < i + (bs.length + 1) ∧ j < a.size := by omega
        rw [if_pos h, if_pos h₂, show j - i = j - (i + 1) + 1 by omega]
        simp
      · have h₂ : ¬ (i ≤ j ∧ j < i + (bs.length + 1) ∧ j < a.size) := by omega
        rw [if_neg h, if_neg h₂]

structure Region where
  base   : Word
  access : Access
  bytes  : Array Byte

namespace Region

-- One past the address of the last byte; a region at the very end of memory ends at `addressLimit`.
def stop (r : Region) : Nat :=
  r.base.toNat + r.bytes.size

def Covers (r : Region) (addr : Word) (len : Nat) : Prop :=
  r.base ≤ addr ∧ addr.toNat + len ≤ r.stop

instance (r : Region) (addr : Word) (len : Nat) : Decidable (r.Covers addr len) :=
  inferInstanceAs (Decidable (_ ∧ _))

def offset (r : Region) (addr : Word) : Nat :=
  addr.toNat - r.base.toNat

def read (r : Region) (addr : Word) (len : Nat) : List Byte :=
  (r.bytes.extract (r.offset addr) (r.offset addr + len)).toList

def overwrite (r : Region) (addr : Word) (bs : List Byte) : Region :=
  { r with bytes := overwriteFrom r.bytes (r.offset addr) bs }

@[simp]
theorem base_overwrite (r : Region) (addr : Word) (bs : List Byte) :
    (r.overwrite addr bs).base = r.base :=
  rfl

@[simp]
theorem access_overwrite (r : Region) (addr : Word) (bs : List Byte) :
    (r.overwrite addr bs).access = r.access :=
  rfl

@[simp]
theorem stop_overwrite (r : Region) (addr : Word) (bs : List Byte) :
    (r.overwrite addr bs).stop = r.stop := by
  simp [overwrite, stop]

def byte? (r : Region) (addr : Word) : Option Byte :=
  if r.base ≤ addr then r.bytes[r.offset addr]? else none

theorem length_read {r : Region} {addr : Word} {len : Nat} (h : r.Covers addr len) :
    (r.read addr len).length = len := by
  obtain ⟨h₁, h₂⟩ := h
  rw [BitVec.le_def] at h₁
  simp only [stop] at h₂
  simp only [read, offset, Array.length_toList, Array.size_extract]
  omega

end Region

end RV32IM
