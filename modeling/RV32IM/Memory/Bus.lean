import RV32IM.Memory.Access

-- Memory as system calls see it, whatever is behind it.

namespace RV32IM

namespace Bus

variable {β : Type}

-- Reads byte by byte, at addresses that wrap around.
def readEach (readByte : β → Word → Except MemoryError Byte) (bus : β) (addr : Word) :
    Nat → Except MemoryError (List Byte)
  | 0 => .ok []
  | n + 1 =>
    match readByte bus addr with
    | .error e => .error e
    | .ok b => (readEach readByte bus (addr + 1) n).map (b :: ·)

-- Writes byte by byte. Bytes before the first that is refused stay written.
def writeEach (writeByte : β → Word → Byte → Except MemoryError Unit × β) (bus : β) (addr : Word) :
    List Byte → Except MemoryError Unit × β
  | [] => (.ok (), bus)
  | b :: bs =>
    match writeByte bus addr b with
    | (.error e, bus) => (.error e, bus)
    | (.ok _, bus) => writeEach writeByte bus (addr + 1) bs

end Bus

-- A bus of state `β` that no read changes. Bytes in a row are moved one by one unless the bus has
-- another way to do it.
class Bus (β : Type) where
  readByte   : β → Word → Except MemoryError Byte
  writeByte  : β → Word → Byte → Except MemoryError Unit × β
  readBytes  : β → Word → Nat → Except MemoryError (List Byte) := Bus.readEach readByte
  writeBytes : β → Word → List Byte → Except MemoryError Unit × β := Bus.writeEach writeByte

-- Whether bytes in a row are written as a whole or not at all.
class Bus.Atomic (β : Type) [Bus β] : Prop where
  writeBytes_error (bus : β) (addr : Word) (bs : List Byte) (e : MemoryError) :
    (Bus.writeBytes bus addr bs).1 = .error e → (Bus.writeBytes bus addr bs).2 = bus

theorem Bus.eq_of_writeBytes_error {β : Type} [Bus β] [Bus.Atomic β] {bus bus' : β} {addr : Word}
    {bs : List Byte} {e : MemoryError} (h : Bus.writeBytes bus addr bs = (.error e, bus')) :
    bus' = bus := by
  simpa [h] using Bus.Atomic.writeBytes_error bus addr bs e

end RV32IM
