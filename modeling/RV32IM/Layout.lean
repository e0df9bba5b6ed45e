import RV32IM.Word

-- Bit fields of a word, and layouts, which scatter one value over several fields. A layout lists
-- its fields from the most significant part of the value down, so the sign of the value is the top
-- bit of the first field.

namespace RV32IM

-- `width` bits of a word, from bit `pos` up.
structure Field where
  pos   : Nat
  width : Nat
  deriving DecidableEq

namespace Field

-- A word whose low bits, as many as the field is wide, are set.
def mask (f : Field) : Word :=
  (1 <<< f.width) - 1

def extract (f : Field) (w : Word) : Word :=
  (w >>> f.pos) &&& f.mask

-- Adds the low bits of `value` to the field; bits that are set already stay set.
def insert (f : Field) (w value : Word) : Word :=
  w ||| ((value &&& f.mask) <<< f.pos)

def clear (f : Field) (w : Word) : Word :=
  w &&& ~~~(f.mask <<< f.pos)

end Field

-- The value that the low `width` bits of a word denote in two's complement.
def signExtend (w : Word) (width : Nat) : Word :=
  if width < 32 then (w.setWidth width).signExtend 32 else w

abbrev Layout := List Field

namespace Layout

-- The number of bits of the value that a layout scatters.
def width : Layout → Nat
  | [] => 0
  | f :: fs => f.width + width fs

def extract (l : Layout) (w : Word) : Word :=
  l.foldl (fun acc f => (acc <<< f.width) ||| f.extract w) 0

def extractSigned (l : Layout) (w : Word) : Word :=
  signExtend (l.extract w) l.width

-- Scatters the low bits of `value` over the fields.
def insert : Layout → Word → Word → Word
  | [], w, _ => w
  | f :: fs, w, value => insert fs (f.insert w (value >>> width fs)) value

def clear (l : Layout) (w : Word) : Word :=
  l.foldl (fun acc f => f.clear acc) w

def replace (l : Layout) (w value : Word) : Word :=
  l.insert (l.clear w) value

-- The 12-bit immediate of register-immediate instructions and loads.
def iImm : Layout := [⟨20, 12⟩]

-- The 12-bit immediate of stores.
def sImm : Layout := [⟨25, 7⟩, ⟨7, 5⟩]

-- Half the displacement of a conditional branch.
def bImm : Layout := [⟨31, 1⟩, ⟨7, 1⟩, ⟨25, 6⟩, ⟨8, 4⟩]

-- The upper 20 bits of `lui` and `auipc`.
def uImm : Layout := [⟨12, 20⟩]

-- Half the displacement of `jal`.
def jImm : Layout := [⟨31, 1⟩, ⟨12, 8⟩, ⟨20, 1⟩, ⟨21, 10⟩]

end Layout

-- The upper and lower parts of a pc-relative displacement. The lower part is signed, so the upper
-- part is rounded to the nearest multiple of 4096.
def splitDisplacement (d : Word) : Word × Word :=
  ((d + 0x800) >>> 12, signExtend d 12)

end RV32IM
