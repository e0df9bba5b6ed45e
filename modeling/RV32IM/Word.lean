-- Bytes, words and the little-endian reading of byte strings. `value` and `encode` are inverse to
-- each other on strings of one length.

namespace RV32IM

abbrev Byte := BitVec 8

abbrev Word := BitVec 32

-- How many values `width` bits have.
def valueCount (width : Nat) : Nat :=
  1 <<< width

theorem valueCount_word : valueCount 32 = 0x100000000 := rfl

theorem valueCount_add (m n : Nat) : valueCount (m + n) = valueCount m * valueCount n := by
  simp [valueCount, Nat.shiftLeft_eq, Nat.pow_add]

namespace LittleEndian

-- The number that a byte string denotes, least significant byte first.
def value : List Byte → Nat
  | [] => 0
  | b :: bs => b.toNat + 256 * value bs

-- The low `n` bytes of a number, least significant byte first.
def encode : Nat → Nat → List Byte
  | 0, _ => []
  | n + 1, v => BitVec.ofNat 8 v :: encode n (v / 256)

@[simp]
theorem length_encode (n v : Nat) : (encode n v).length = n := by
  induction n generalizing v with
  | zero => rfl
  | succ n ih => simp [encode, ih]

theorem value_lt (bs : List Byte) : value bs < valueCount (8 * bs.length) := by
  induction bs with
  | nil => decide
  | cons b bs ih =>
    have := b.isLt
    have h8 : valueCount 8 = 256 := rfl
    rw [List.length_cons, Nat.mul_succ, Nat.add_comm, valueCount_add, h8, value]
    omega

theorem value_encode (n v : Nat) : value (encode n v) = v % valueCount (8 * n) := by
  induction n generalizing v with
  | zero => simp [encode, value, valueCount, Nat.mod_one]
  | succ n ih =>
    simp only [encode, value, ih, BitVec.toNat_ofNat]
    rw [Nat.mul_succ, Nat.add_comm (8 * n), valueCount_add, Nat.mod_mul]
    rfl

theorem encode_value (bs : List Byte) : encode bs.length (value bs) = bs := by
  induction bs with
  | nil => rfl
  | cons b bs ih =>
    have := b.isLt
    simp only [List.length_cons, encode, value, List.cons.injEq]
    constructor
    · apply BitVec.eq_of_toNat_eq
      simp only [BitVec.toNat_ofNat]
      omega
    · rw [show (b.toNat + 256 * value bs) / 256 = value bs by omega, ih]

end LittleEndian

namespace Word

-- The four bytes of a word as memory holds them.
def toBytes (w : Word) : List Byte :=
  LittleEndian.encode 4 w.toNat

-- The word that four bytes of memory hold.
def ofBytes (bs : List Byte) : Word :=
  BitVec.ofNat 32 (LittleEndian.value bs)

@[simp]
theorem length_toBytes (w : Word) : w.toBytes.length = 4 :=
  LittleEndian.length_encode ..

@[simp]
theorem ofBytes_toBytes (w : Word) : ofBytes w.toBytes = w := by
  apply BitVec.eq_of_toNat_eq
  simp only [ofBytes, toBytes, LittleEndian.value_encode, Nat.reduceMul, valueCount_word,
    BitVec.toNat_ofNat]
  have := w.isLt
  omega

theorem toBytes_ofBytes {bs : List Byte} (h : bs.length = 4) : (ofBytes bs).toBytes = bs := by
  have hlt := LittleEndian.value_lt bs
  simp only [h, Nat.reduceMul, valueCount_word] at hlt
  have hmod : (ofBytes bs).toNat = LittleEndian.value bs := by
    simp only [ofBytes, BitVec.toNat_ofNat]
    omega
  have := LittleEndian.encode_value bs
  rw [h] at this
  rw [toBytes, hmod, this]

end Word

-- Whether a number is a signed value of `width` bits.
def fitsSigned (v : Int) (width : Nat) : Bool :=
  -(valueCount (width - 1) : Int) ≤ v && v < valueCount (width - 1)

end RV32IM
