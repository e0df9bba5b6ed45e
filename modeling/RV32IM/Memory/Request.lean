import RV32IM.Memory.AddressSpace

-- Requests to memory, made one after the other. One that is refused leaves memory as it is, but for
-- a store byte by byte, which keeps the bytes before the first that was refused.

namespace RV32IM

inductive Request
  | allocate (base : Word) (len : Nat) (access : Access)
  | allocateAnywhere (len : Nat) (access : Access)
  | read (addr : Word) (len : Nat) (required : Access)
  | write (addr : Word) (bs : List Byte) (required : Access)
  | poke (addr : Word) (bs : List Byte)
  | peekWord (addr : Word)
  | pokeWord (addr : Word) (w : Word)
  | load (addr : Word) (len : Nat)
  | store (addr : Word) (bs : List Byte)
  | fetch (addr : Word)
  | loadEach (addr : Word) (len : Nat)
  | storeEach (addr : Word) (bs : List Byte)
  deriving DecidableEq

-- Bytes in a row, and the permissions that it takes to get at them.
structure Extent where
  addr     : Word
  len      : Nat
  required : Access

-- What a request is about, unless it maps a region or goes byte by byte.
def Request.extent? : Request → Option Extent
  | read addr len required => some ⟨addr, len, required⟩
  | write addr bs required => some ⟨addr, bs.length, required⟩
  | poke addr bs => some ⟨addr, bs.length, .none⟩
  | peekWord addr => some ⟨addr, 4, .none⟩
  | pokeWord addr _ => some ⟨addr, 4, .none⟩
  | load addr len => some ⟨addr, len, .read⟩
  | store addr bs => some ⟨addr, bs.length, .write⟩
  | fetch addr => some ⟨addr, 4, .execute⟩
  | allocate .. | allocateAnywhere .. | loadEach .. | storeEach .. => none

-- What a request gives that is not refused.
inductive Answer
  | done
  | base (addr : Word)
  | bytes (bs : List Byte)
  | word (w : Word)
  deriving DecidableEq

-- How a request ends.
inductive Reply
  | ok (a : Answer)
  | error (e : MemoryError)
  -- Whoever made the request does not go on.
  | panicked
  deriving DecidableEq

def Reply.of : Except MemoryError Answer → Reply
  | .ok a => .ok a
  | .error e => .error e

namespace AddressSpace

-- Memory as it is after a change that may have been refused.
def settle (s : AddressSpace) (r : Except MemoryError (Answer × AddressSpace)) :
    Reply × AddressSpace :=
  match r with
  | .ok (a, s) => (.ok a, s)
  | .error e => (.error e, s)

def serve (s : AddressSpace) : Request → Reply × AddressSpace
  | .allocate base len access => s.settle ((s.allocate base len access).map (.base base, ·))
  | .allocateAnywhere len access =>
    s.settle ((s.allocateAnywhere len access).map fun (base, s) => (.base base, s))
  | .read addr len required => (.of ((s.read addr len required).map .bytes), s)
  | .write addr bs required => s.settle ((s.write addr bs required).map (.done, ·))
  | .poke addr bs => s.settle ((s.poke addr bs).map (.done, ·))
  | .peekWord addr => (.of ((s.peekWord addr).map .word), s)
  | .pokeWord addr w => s.settle ((s.pokeWord addr w).map (.done, ·))
  | .load addr len => (.of ((s.load addr len).map .bytes), s)
  | .store addr bs => s.settle ((s.store addr bs).map (.done, ·))
  | .fetch addr => (.of ((s.fetch addr).map .word), s)
  | .loadEach addr len => (.of ((s.loadEach addr len).map .bytes), s)
  | .storeEach addr bs =>
    (.of ((s.storeEach addr bs).fst.map fun _ => .done), (s.storeEach addr bs).snd)

def perform (s : AddressSpace) (req : Request) : Reply × AddressSpace :=
  match req.extent? with
  | some e => if s.panics e.addr e.len e.required then (.panicked, s) else s.serve req
  | none => s.serve req

-- Memory after requests, whatever each of them gave.
def performAll (s : AddressSpace) (reqs : List Request) : AddressSpace :=
  reqs.foldl (fun s req => (s.perform req).snd) s

end AddressSpace

end RV32IM
