import RV32IM.Memory.AddressSpace
import RV32IM.Session

-- Linking: the image of an object is mapped into a fresh address space, with a stack beside it, and
-- each relocation is applied once, in recorded order. A relocation that cannot be applied is
-- reported and leaves its word as it was assembled.

namespace RV32IM

structure LinkConfig where
  -- Where the image is meant to be loaded.
  base        : Word := 0
  textAccess  : Access := .all
  -- The size of the stack in bytes. There is none if this is zero.
  stackSize   : Nat := 0x10000
  -- Where the program starts; at its base if there is no such symbol.
  entrySymbol : String := "_start"
  deriving DecidableEq

structure Linked where
  space       : AddressSpace
  base        : Word
  imageLen    : Nat
  entry       : Word
  stackTop    : Option Word
  symbols     : SymbolTable
  diagnostics : Array Diagnostic

namespace Linked

def clean (l : Linked) : Bool :=
  l.diagnostics.isEmpty

-- The image as it stands in memory.
def image (l : Linked) : List Byte :=
  match l.space.regionAt? l.base with
  | some r => (r.bytes.extract 0 l.imageLen).toList
  | none => []

def report (l : Linked) (d : Diagnostic) : Linked :=
  { l with diagnostics := l.diagnostics.push d }

end Linked

-- Maps a stack anywhere, unless its size is zero, and gives the address of its top.
def AddressSpace.allocateStack (s : AddressSpace) (size : Nat) :
    Except MemoryError (Option Word × AddressSpace) :=
  if size = 0 then .ok (none, s)
  else (s.allocateAnywhere size .readWrite).map fun (bottom, s) =>
    (some (bottom + BitVec.ofNat 32 size), s)

-- Maps an object and leaves its relocations alone. Code depends on its position, so a configuration
-- that names another base is reported and does not move it.
def Object.place (o : Object) (cfg : LinkConfig) : Except MemoryError Linked := do
  if o.image.size ≥ addressLimit then throw (.exhausted (addressLimit - 1))
  let space ← AddressSpace.empty.allocate o.base (max o.image.size 1) cfg.textAccess
  let space ← space.poke o.base o.image.toList
  let (stackTop, space) ← space.allocateStack cfg.stackSize
  return {
    space, stackTop
    base := o.base
    imageLen := o.image.size
    entry := (o.symbols.address? cfg.entrySymbol).getD o.base
    symbols := o.symbols
    diagnostics :=
      if cfg.base = o.base then o.diagnostics
      else o.diagnostics.push (.baseMismatch o.base cfg.base) }

namespace Relocation

def resolve (symbols : SymbolTable) (name : String) (site : Word) : Except Diagnostic Word :=
  match symbols.address? name with
  | some address => .ok address
  | none => .error (.undefinedSymbol name site)

-- The relocation of an upper part at an address; of several, the last recorded.
def hiAt? (relocs : Array Relocation) (address : Word) : Option Relocation :=
  relocs.findRev? fun r => r.kind = .hi && r.site = address

-- Where the lower part of a displacement sits in a word. Only stores have it in two parts.
def lowLayout (w : Word) : Layout :=
  if w.extractLsb' 0 7 = 0x23 then Layout.sImm else Layout.iImm

-- The number that a relocation puts in place of its target. The lower part of a displacement is
-- counted from the anchor, where its upper part is, and not from its own site.
def value (r : Relocation) (symbols : SymbolTable) (relocs : Array Relocation) :
    Except Diagnostic Word := do
  let address ← resolve symbols r.target r.site
  match r.kind with
  | .jump | .branch =>
    let disp := address - r.site
    if Session.reaches disp r.kind then return disp
    else throw (.outOfRange r.site r.kind disp.toInt)
  | .word => return address
  | .hi => return (splitDisplacement (address - r.site)).1
  | .lo =>
    match hiAt? relocs address with
    | none => throw (.missingHiPair r.site address)
    | some hi => return (splitDisplacement ((← resolve symbols hi.target r.site) - address)).2

-- The word `w` with a number in the place that relocations of a kind fill.
def fill (w v : Word) : RelocKind → Word
  | .jump => Layout.jImm.replace w (v >>> 1)
  | .branch => Layout.bImm.replace w (v >>> 1)
  | .word => v
  | .hi => Layout.uImm.replace w v
  | .lo => (lowLayout w).replace w v

-- The word that takes the place of `w` at the site of a relocation.
def patch (r : Relocation) (symbols : SymbolTable) (relocs : Array Relocation) (w : Word) :
    Except Diagnostic Word :=
  (r.value symbols relocs).map (fill w · r.kind)

end Relocation

def Linked.relocate (relocs : Array Relocation) (l : Linked) (r : Relocation) : Linked :=
  match l.space.peekWord r.site with
  | .error _ => l.report (.badSite r.site)
  | .ok w =>
    match r.patch l.symbols relocs w with
    | .error d => l.report d
    | .ok w => { l with space := l.space.overwrite r.site w.toBytes }

def Object.link (o : Object) (cfg : LinkConfig) : Except MemoryError Linked :=
  (o.place cfg).map fun l => o.relocations.foldl (Linked.relocate o.relocations) l

end RV32IM
