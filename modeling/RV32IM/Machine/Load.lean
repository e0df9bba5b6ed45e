import RV32IM.Elf
import RV32IM.Machine

-- Starting the image of an ELF file.

namespace RV32IM.Machine

-- Maps an image and starts it. A stack is mapped for it unless the configuration says where the
-- stack pointer begins.
def ofElf (img : Elf.Image) (cfg : HartConfig) (stackSize : Nat) : Except MemoryError Machine := do
  let (loaded, space) := img.load .empty
  loaded
  match cfg.initialSp with
  | some _ => return start space img.entry cfg
  | none =>
    let (top, space) ← space.allocateStack stackSize
    return start space img.entry { cfg with initialSp := top }

end RV32IM.Machine
