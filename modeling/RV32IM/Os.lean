import RV32IM.Host
import RV32IM.Memory.AddressSpace

-- The handles of a program, and what it can do with them: write, read, open and close. What the
-- host refuses, and a handle that is not open, give the program -1; memory that cannot be accessed
-- is a fault.

namespace RV32IM

-- The handles of a program and the host behind them. A slot that was closed stays empty.
structure Os (η σ : Type) where
  handles : Array (Option η)
  host    : σ

namespace Os

-- The first three slots are the standard streams.
def start (host : Host) : Os Handle Host :=
  ⟨#[some .stdin, some .stdout, some .stderr], host⟩

variable {η σ : Type}

-- The slot of a handle number, if it is open.
def slot? (os : Os η σ) (number : Word) : Option (Nat × η) :=
  if number.msb then none
  else (os.handles[number.toNat]?).join.map (number.toNat, ·)

def isOpen (os : Os η σ) (number : Word) : Bool :=
  (os.slot? number).isSome

-- The bytes that one transfer moves at most.
def chunkSize : Nat := 4096

-- What a request to the host leaves of a slot and of the host.
def update (os : Os η σ) (slot : Nat) (handle : η) (host : σ) : Os η σ :=
  ⟨os.handles.setIfInBounds slot (some handle), host⟩

section Requests

variable {β : Type} [Bus β] [HostInterface η σ]

-- Writes bytes to a slot, and says whether the host took all of them.
def put (os : Os η σ) (slot : Nat) (bs : List Byte) : Bool × Os η σ :=
  match os.handles[slot]?.join with
  | none => (false, os)
  | some handle =>
    let (done, handle, host) := HostInterface.write os.host handle bs
    (done, os.update slot handle host)

-- Writes `left` more bytes from memory, chunk by chunk. A chunk that cannot be read is a fault, but
-- chunks before it stay written.
def writeFrom (os : Os η σ) (bus : β) (slot : Nat) (addr : Word) (done left : Nat) :
    Except MemoryError Word × Os η σ :=
  if left = 0 then (.ok (BitVec.ofNat 32 done), os)
  else
    let n := min left chunkSize
    match Bus.readBytes bus addr n with
    | .error e => (.error e, os)
    | .ok bs =>
      match os.put slot bs with
      | (false, os) => (.ok (-1), os)
      | (true, os) => writeFrom os bus slot (addr + BitVec.ofNat 32 n) (done + n) (left - n)
termination_by left
decreasing_by
  simp only [chunkSize]
  omega

def write (os : Os η σ) (bus : β) (number addr : Word) (len : Nat) :
    Except MemoryError Word × Os η σ :=
  match os.slot? number with
  | none => (.ok (-1), os)
  | some (slot, _) => os.writeFrom bus slot addr 0 len

-- Reads one chunk at most into memory.
def read (os : Os η σ) (bus : β) (number addr : Word) (len : Nat) :
    Except MemoryError Word × β × Os η σ :=
  match os.slot? number with
  | none => (.ok (-1), bus, os)
  | some (slot, handle) =>
    let (bytes, handle, host) := HostInterface.read os.host handle (min len chunkSize)
    let os := os.update slot handle host
    match bytes with
    | none => (.ok (-1), bus, os)
    | some [] => (.ok 0, bus, os)
    | some bs =>
      match Bus.writeBytes bus addr bs with
      | (.error e, bus) => (.error e, bus, os)
      | (.ok _, bus) => (.ok (BitVec.ofNat 32 bs.length), bus, os)

-- The bytes from an address up to the first zero, if there is one among the next `limit`.
def path? (bus : β) (addr : Word) : (limit : Nat) → Except MemoryError (Option (List Byte))
  | 0 => .ok none
  | limit + 1 =>
    match Bus.readByte bus addr with
    | .error e => .error e
    | .ok b =>
      if b = 0 then .ok (some [])
      else (path? bus (addr + 1) limit).map fun rest => rest.map (b :: ·)

-- Opens a file. The handle is a slot that was never used before.
def openFile (os : Os η σ) (bus : β) (addr flags : Word) :
    Except MemoryError Word × Os η σ :=
  match OpenMode.ofFlags? flags with
  | none => (.ok (-1), os)
  | some mode =>
    match path? bus addr Directory.pathLimit with
    | .error e => (.error e, os)
    | .ok none => (.ok (-1), os)
    | .ok (some bs) =>
      match Utf8.decode bs with
      | .error _ => (.ok (-1), os)
      | .ok path =>
        match (HostInterface.openPath os.host (String.ofList path) mode : Option η × σ) with
        | (none, host) => (.ok (-1), { os with host })
        | (some handle, host) =>
          (.ok (BitVec.ofNat 32 os.handles.size), ⟨os.handles.push (some handle), host⟩)

end Requests

def close (os : Os η σ) (number : Word) : Word × Os η σ :=
  match os.slot? number with
  | none => (-1, os)
  | some (slot, _) => (0, { os with handles := os.handles.setIfInBounds slot none })

end Os

end RV32IM
