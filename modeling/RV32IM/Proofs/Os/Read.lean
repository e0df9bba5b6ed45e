import RV32IM.Proofs.Os.Handles

-- Reads. One gets a chunk from the host at most, and the program gets all that the host gives.

namespace RV32IM.Os

-- Whether reads give at most as many bytes as they are asked for.
def ReadsWithin (η σ : Type) [HostInterface η σ] : Prop :=
  ∀ (host : σ) (x : η) (n : Nat) (bs : List Byte),
    (HostInterface.read host x n).1 = some bs → bs.length ≤ n

variable {η σ β : Type} [HostInterface η σ] [Bus β] {os : Os η σ} {bus : β} {number addr : Word}
  {len slot : Nat} {x : η}

-- What the request to the host leaves that a read makes.
def afterRead (os : Os η σ) (slot : Nat) (x : η) (len : Nat) : Os η σ :=
  let r := HostInterface.read os.host x (min len chunkSize)
  os.update slot r.2.1 r.2.2

-- What a read from an open slot can do.
inductive Reads (os : Os η σ) (bus : β) (slot : Nat) (x : η) (addr : Word) (len : Nat) :
    Except MemoryError Word × β × Os η σ → Prop
  | refused (h : (HostInterface.read os.host x (min len chunkSize)).1 = none) :
    Reads os bus slot x addr len (.ok (-1), bus, os.afterRead slot x len)
  | ended (h : (HostInterface.read os.host x (min len chunkSize)).1 = some []) :
    Reads os bus slot x addr len (.ok 0, bus, os.afterRead slot x len)
  | stored {bs : List Byte} {bus' : β} (hne : bs ≠ [])
      (h : (HostInterface.read os.host x (min len chunkSize)).1 = some bs)
      (hw : Bus.writeBytes bus addr bs = (.ok (), bus')) :
    Reads os bus slot x addr len
      (.ok (BitVec.ofNat 32 bs.length), bus', os.afterRead slot x len)
  | fault {bs : List Byte} {bus' : β} (e : MemoryError)
      (hw : Bus.writeBytes bus addr bs = (.error e, bus')) :
    Reads os bus slot x addr len (.error e, bus', os.afterRead slot x len)

theorem reads_read (h : os.slot? number = some (slot, x)) (bus : β) (addr : Word) (len : Nat) :
    os.Reads bus slot x addr len (os.read bus number addr len) := by
  simp only [read, h]
  split
  case h_1 hr => exact .refused hr
  case h_2 hr => exact .ended hr
  case h_3 bs hne hr =>
  split
  case h_1 hw => exact .fault _ hw
  case h_2 hw => exact .stored hne hr hw

theorem read_eq_of_lacks (h : os.Lacks number) (bus : β) (addr : Word) (len : Nat) :
    os.read bus number addr len = (.ok (-1), bus, os) := by
  simp only [read, slot?_eq_none h]

end RV32IM.Os
