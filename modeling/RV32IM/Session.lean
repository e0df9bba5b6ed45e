import RV32IM.Diagnostic
import RV32IM.Instr
import RV32IM.Memory.Region

-- Assembly sessions. A session grows an image, binds names to addresses and records a relocation
-- for each operand that names a symbol; the field of such an operand stays zero in the image. A
-- session never fails: what is wrong goes to its diagnostics.

namespace RV32IM

inductive Imm
  | value (v : Word)
  -- The upper part of the displacement to a symbol.
  | hi (symbol : String)
  -- The lower part of the displacement whose upper part is `distance` bytes back.
  | lo (distance : Word)
  -- The lower part of the displacement whose upper part is at an anchor.
  | anchored (anchor : String)
  deriving DecidableEq

inductive Target
  -- A displacement from the instruction.
  | offset (disp : Word)
  | label (name : String)
  deriving DecidableEq

structure Object where
  base        : Word
  image       : Array Byte
  symbols     : SymbolTable
  relocations : Array Relocation
  diagnostics : Array Diagnostic

-- An object that grows, and the number of the next anchor to try.
structure Session extends Object where
  nextAnchor : Nat

namespace Session

def start (base : Word) : Session :=
  { base, image := #[], symbols := .empty, relocations := #[], diagnostics := #[], nextAnchor := 0 }

def cursor (s : Session) : Word :=
  s.base + BitVec.ofNat 32 s.image.size

-- The number of bytes left below the end of the address space.
def room (s : Session) : Nat :=
  addressLimit - (s.base.toNat + s.image.size)

def report (s : Session) (d : Diagnostic) : Session :=
  { s with diagnostics := s.diagnostics.push d }

-- Binds a name to an address. A name that is bound already is reported and keeps its address.
def define (s : Session) (sym : Symbol) : Session :=
  match s.symbols.add sym with
  | .ok symbols => { s with symbols }
  | .error old => s.report (.duplicateSymbol old.name old.address)

-- Binds a name to the cursor. Names that begin like an anchor are refused.
def label (s : Session) (name : String) : Session :=
  if name.toList.head? = some '@' then s.report (.badOperand s.cursor (.reservedLabel name))
  else s.define ⟨name, s.cursor, false⟩

-- Records that the word at the cursor waits for a symbol.
def record (s : Session) (kind : RelocKind) (target : String) : Session :=
  { s with relocations := s.relocations.push ⟨s.cursor, kind, target⟩ }

def bytes (s : Session) (bs : List Byte) : Session :=
  { s with image := s.image ++ bs }

def word (s : Session) (w : Word) : Session :=
  s.bytes w.toBytes

def anchorName (n : Nat) : String :=
  "@pcrel_hi" ++ Numeral.decimal n

-- The first number from `n` on whose anchor is not bound. A table of `tries` symbols cannot bind
-- more anchors than that.
def freshFrom (t : SymbolTable) : (tries n : Nat) → Nat
  | 0, n => n
  | tries + 1, n => if t.contains (anchorName n) then freshFrom t tries (n + 1) else n

-- Binds a fresh anchor to the address `distance` bytes before the cursor.
def anchor (s : Session) (distance : Word) : String × Session :=
  let n := freshFrom s.symbols s.symbols.size s.nextAnchor
  let name := anchorName n
  (name, define { s with nextAnchor := n + 1 } ⟨name, s.cursor - distance, true⟩)

-- The value of an immediate of twelve bits, which is zero for now if it names a symbol.
def lowImm (s : Session) : Imm → Word × Session
  | .value v =>
    (v, if fitsSigned v.toInt 12 then s else s.report (.immediateRange s.cursor v.toInt 12))
  | .hi symbol => (0, s.report (.badOperand s.cursor (.hiNeedsUpper symbol)))
  | .lo distance =>
    let (name, s) := s.anchor distance
    (0, s.record .lo name)
  | .anchored name => (0, s.record .lo name)

-- The value of an immediate of twenty bits, which may be meant signed or unsigned.
def upperImm (s : Session) : Imm → Word × Session
  | .value v =>
    let fits := -(valueCount 19 : Int) ≤ v.toInt && v.toInt < valueCount 20
    (v, if fits then s else s.report (.immediateRange s.cursor v.toInt 20))
  | .hi symbol => (0, s.record .hi symbol)
  | .lo distance =>
    let (name, s) := s.anchor distance
    (0, s.report (.badOperand s.cursor (.loNeedsLow name)))
  | .anchored name => (0, s.report (.badOperand s.cursor (.loNeedsLow name)))

-- Whether a displacement can be coded: it must be even and fit the width.
def reaches (disp : Word) (kind : RelocKind) : Bool :=
  disp &&& 1 == 0 && fitsSigned disp.toInt kind.width

-- The displacement to a target, which is zero for now if it is a label.
def displacement (s : Session) (kind : RelocKind) : Target → Word × Session
  | .offset disp =>
    (disp, if reaches disp kind then s else s.report (.outOfRange s.cursor kind disp.toInt))
  | .label name => (0, s.record kind name)

-- The amount of a shift, which is coded modulo 32.
def shiftAmount (s : Session) (amount : Word) : Session :=
  if amount < 32 then s else s.report (.immediateRange s.cursor amount.toNat 5)

-- Appends zeros, or nothing at all if they do not fit the address space.
def zeros (s : Session) (len : Nat) : Session :=
  if len > s.room then s.report (.badOperand s.cursor (.zerosTooLong len))
  else s.bytes (List.replicate len 0)

-- Appends zeros up to a multiple of `n`.
def align (s : Session) (n : Nat) : Session :=
  if n > 1 then s.zeros ((n - s.cursor.toNat % n) % n) else s

end Session

end RV32IM
