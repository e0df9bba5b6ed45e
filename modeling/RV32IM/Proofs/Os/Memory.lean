import RV32IM.Os
import RV32IM.Proofs.Memory.Alike

-- System calls and memory. What a call leaves unchanged in memory, and that it sees nothing of
-- memory but what a load shows.

namespace RV32IM.Os

variable {η σ : Type} [HostInterface η σ] {s s' : AddressSpace}

-- Only a read changes memory, and only where the program may write.
theorem alike_read (os : Os η σ) (s : AddressSpace) (number addr : Word) (len : Nat) :
    s.Alike Access.ReadOnly (os.read s number addr len).2.1 := by
  unfold read
  split
  case h_1 => exact .refl _ s
  case h_2 =>
  dsimp only
  split
  case h_1 => exact .refl _ s
  case h_2 => exact .refl _ s
  case h_3 bs _ _ =>
  split
  case h_1 hw =>
    rw [Bus.eq_of_writeBytes_error hw]
    exact .refl _ s
  case h_2 hw =>
    obtain ⟨_, hc, rfl⟩ := AddressSpace.check_of_writeBytes hw
    exact .overwrite_of_check hc

section Visible

variable (h : s.Alike Access.Visible s')

include h

theorem writeFrom_eq (os : Os η σ) (slot : Nat) (addr : Word) (done left : Nat) :
    os.writeFrom s' slot addr done left = os.writeFrom s slot addr done left := by
  fun_induction os.writeFrom s slot addr done left
  case case1 => rw [writeFrom, if_pos rfl]
  case case2 hleft n e hl =>
    simp only [n] at hl
    rw [writeFrom, if_neg hleft]
    simp only [h.readBytes_eq, hl]
  case case3 hleft n bs hl os hp =>
    simp only [n] at hl
    rw [writeFrom, if_neg hleft]
    simp only [h.readBytes_eq, hl, hp]
  case case4 hleft n bs hl os hp ih =>
    simp only [n] at hl ih
    rw [writeFrom, if_neg hleft]
    simp only [h.readBytes_eq, hl, hp, ih]
    rfl

theorem write_eq (os : Os η σ) (number addr : Word) (len : Nat) :
    os.write s' number addr len = os.write s number addr len := by
  simp only [write, writeFrom_eq h]

theorem path?_eq (addr : Word) (limit : Nat) : path? s' addr limit = path? s addr limit := by
  induction limit generalizing addr
  case zero => rfl
  case succ limit ih => simp only [path?, h.readByte_eq, ih]

theorem openFile_eq (os : Os η σ) (addr flags : Word) :
    os.openFile s' addr flags = os.openFile s addr flags := by
  simp only [openFile, path?_eq h]

-- A read gives the same answer, and stores the same bytes.
theorem read_alike (os : Os η σ) (number addr : Word) (len : Nat) :
    (os.read s' number addr len).1 = (os.read s number addr len).1 ∧
      (os.read s number addr len).2.1.Alike Access.Visible (os.read s' number addr len).2.1 ∧
        (os.read s' number addr len).2.2 = (os.read s number addr len).2.2 := by
  unfold read
  split
  case h_1 => exact ⟨rfl, h, rfl⟩
  case h_2 =>
  dsimp only
  split
  case h_1 => exact ⟨rfl, h, rfl⟩
  case h_2 => exact ⟨rfl, h, rfl⟩
  case h_3 bs _ _ =>
  obtain ⟨hs, hs'⟩ | ⟨e, hs, hs'⟩ := h.writeBytes addr bs
  case inl =>
    simpa only [hs, hs', true_and, and_true] using h.overwrite addr bs
  case inr =>
    simpa only [hs, hs', true_and, and_true] using h

end Visible

end RV32IM.Os
