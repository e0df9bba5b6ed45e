import RV32IM.Memory.Bus
import RV32IM.Memory.Region

-- The address space: regions that do not overlap. A request is served by one region or by none, so
-- an access that runs from one region into the next is refused even if the two are adjacent.

namespace RV32IM

-- A map from keys to regions, highest key first. Regions are looked up by their keys alone. That
-- the key of a region is its base is not part of the data.
structure AddressSpace where
  entries : List (Word × Region)

-- A length rounded up to whole pages, unless the rounding leaves 32 bits.
def pageRound? (len : Nat) : Option Nat :=
  if len + (pageSize - 1) < addressLimit then some ((len + (pageSize - 1)) / pageSize * pageSize)
  else none

namespace AddressSpace

def empty : AddressSpace := ⟨[]⟩

def keys (s : AddressSpace) : List Word :=
  s.entries.map Prod.fst

def regions (s : AddressSpace) : List Region :=
  s.entries.map Prod.snd

def ascending (s : AddressSpace) : List Region :=
  s.regions.reverse

-- Whether a region has an address in common with the span from `base` up to `stop`.
def overlaps (s : AddressSpace) (base stop : Nat) : Bool :=
  s.regions.any fun r => base < r.stop && r.base.toNat < stop

-- The entry of the greatest key that is not above an address.
def floor? (s : AddressSpace) (addr : Word) : Option (Word × Region) :=
  s.entries.find? fun e => e.1 ≤ addr

def lookup (s : AddressSpace) (addr : Word) : Option Region :=
  (s.floor? addr).map Prod.snd

-- Enters a region in the map. A region that has the key already is replaced.
def insert (s : AddressSpace) (key : Word) (r : Region) : AddressSpace :=
  ⟨go s.entries⟩
where
  go : List (Word × Region) → List (Word × Region)
    | [] => [(key, r)]
    | e :: es =>
      if e.1 < key then (key, r) :: e :: es
      else if e.1 = key then (key, r) :: es
      else e :: go es

-- Maps a region of zeros, whole pages long, at a page boundary.
def allocate (s : AddressSpace) (base : Word) (len : Nat) (access : Access) :
    Except MemoryError AddressSpace :=
  if len = 0 then .error .zeroLength
  else if base.toNat % pageSize ≠ 0 then .error (.misaligned base)
  else match pageRound? len with
  | none => .error (.overlap base len)
  | some size =>
    let stop := base.toNat + size
    if stop > addressLimit || s.overlaps base.toNat stop then .error (.overlap base size)
    else .ok (s.insert base ⟨base, access, Array.replicate size 0⟩)

-- The first address, from a candidate on, with room for `size` bytes below the next region. A
-- candidate that does not do is moved one page past the region in its way.
def firstGap (size : Nat) : Nat → List Region → Nat
  | candidate, [] => candidate
  | candidate, r :: rs =>
    if candidate + size ≤ r.base.toNat then candidate
    else firstGap size (max candidate (r.stop + pageSize)) rs

-- Maps a region in the first gap, at least one page past the region below it. The page at address
-- zero is never used.
def allocateAnywhere (s : AddressSpace) (len : Nat) (access : Access) :
    Except MemoryError (Word × AddressSpace) :=
  if len = 0 then .error .zeroLength
  else match pageRound? len with
  | none => .error (.exhausted len)
  | some size =>
    let candidate := firstGap size pageSize s.ascending
    if candidate + size > addressLimit then .error (.exhausted len)
    else
      let base := BitVec.ofNat 32 candidate
      (s.allocate base size access).map (base, ·)

-- The region that holds `len` bytes from an address on.
def locate? (s : AddressSpace) (addr : Word) (len : Nat) : Option Region :=
  match s.lookup addr with
  | some r => if r.Covers addr len then some r else none
  | none => none

def regionAt? (s : AddressSpace) (addr : Word) : Option Region :=
  s.locate? addr 1

-- The region that serves a request, once its permissions have been checked.
def check (s : AddressSpace) (addr : Word) (len : Nat) (required : Access) :
    Except MemoryError Region :=
  match s.locate? addr len with
  | none => .error (.unmapped addr len)
  | some r =>
    if r.access.allows required then .ok r else .error (.denied addr required r.access)

-- The region that serves a request for a buffer. Of the length of the buffer only the low 32 bits
-- are checked. A longer buffer is never served: if the check passes, the lengths of what is copied
-- differ, and the request has no answer at all (`panics`). Here it has an error that nothing sees.
def checkBuffer (s : AddressSpace) (addr : Word) (len : Nat) (required : Access) :
    Except MemoryError Region :=
  match s.check addr (len % addressLimit) required with
  | .ok r => if len < addressLimit then .ok r else .error (.unmapped addr len)
  | .error e => .error e

-- Whether a request for a buffer passes its check and then fails to copy.
def panics (s : AddressSpace) (addr : Word) (len : Nat) (required : Access) : Bool :=
  addressLimit ≤ len && (s.check addr (len % addressLimit) required).isOk

def read (s : AddressSpace) (addr : Word) (len : Nat) (required : Access) :
    Except MemoryError (List Byte) :=
  (s.checkBuffer addr len required).map (·.read addr len)

-- Replaces bytes in the region that an address belongs to, whatever its permissions.
def overwrite (s : AddressSpace) (addr : Word) (bs : List Byte) : AddressSpace :=
  ⟨go s.entries⟩
where
  go : List (Word × Region) → List (Word × Region)
    | [] => []
    | (key, r) :: es => if key ≤ addr then (key, r.overwrite addr bs) :: es else (key, r) :: go es

def write (s : AddressSpace) (addr : Word) (bs : List Byte) (required : Access) :
    Except MemoryError AddressSpace :=
  (s.checkBuffer addr bs.length required).map fun _ => s.overwrite addr bs

def poke (s : AddressSpace) (addr : Word) (bs : List Byte) : Except MemoryError AddressSpace :=
  s.write addr bs .none

def peekWord (s : AddressSpace) (addr : Word) : Except MemoryError Word :=
  (s.read addr 4 .none).map Word.ofBytes

def pokeWord (s : AddressSpace) (addr : Word) (w : Word) : Except MemoryError AddressSpace :=
  s.poke addr w.toBytes

def load (s : AddressSpace) (addr : Word) (len : Nat) : Except MemoryError (List Byte) :=
  s.read addr len .read

def store (s : AddressSpace) (addr : Word) (bs : List Byte) : Except MemoryError AddressSpace :=
  s.write addr bs .write

def fetch (s : AddressSpace) (addr : Word) : Except MemoryError Word :=
  (s.read addr 4 .execute).map Word.ofBytes

-- A store together with the memory that it leaves.
def settleStore (s : AddressSpace) (addr : Word) (bs : List Byte) :
    Except MemoryError Unit × AddressSpace :=
  match s.checkBuffer addr bs.length .write with
  | .error e => (.error e, s)
  | .ok _ => (.ok (), s.overwrite addr bs)

-- Bytes in a row are loaded and stored at once, and one region must have all of them.
instance : Bus AddressSpace where
  readByte s addr := (s.load addr 1).map fun bs => bs.headD 0
  writeByte s addr b := s.settleStore addr [b]
  readBytes := load
  writeBytes := settleStore

-- Loads byte by byte. Each byte may lie in another region.
def loadEach (s : AddressSpace) (addr : Word) (n : Nat) : Except MemoryError (List Byte) :=
  Bus.readEach Bus.readByte s addr n

def storeEach (s : AddressSpace) (addr : Word) (bs : List Byte) :
    Except MemoryError Unit × AddressSpace :=
  Bus.writeEach Bus.writeByte s addr bs

-- The byte at an address, as a loader sees it.
def byte? (s : AddressSpace) (addr : Word) : Option Byte :=
  (s.regionAt? addr).bind (·.byte? addr)

end AddressSpace

end RV32IM
