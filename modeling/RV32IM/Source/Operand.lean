import RV32IM.Session
import RV32IM.Source.Scan

-- The operands of statements: numbers, constants, registers, immediates and targets.

namespace RV32IM.Source

-- Reads a number in decimal, hexadecimal or binary. Underscores are ignored, and one sign may stand
-- in front of the radix and one behind it. The negative of the least number is itself.
def number? (cs : Chars) : Option Int :=
  let cs := (Text.trim cs).filter (· ≠ '_')
  match cs with
  | '-' :: cs => (unsigned cs).map fun v => if v = -(valueCount 63 : Int) then v else -v
  | '+' :: cs => unsigned cs
  | cs => unsigned cs
where
  unsigned : Chars → Option Int
    | '0' :: 'x' :: cs | '0' :: 'X' :: cs => Numeral.integer? 16 cs
    | '0' :: 'b' :: cs | '0' :: 'B' :: cs => Numeral.integer? 2 cs
    | cs => Numeral.integer? 10 cs

structure Context where
  -- The constants that earlier lines named, the latest first.
  constants : List (String × Int)
  -- The number of bytes left below the end of the address space.
  room      : Nat

abbrev Read := Except SourceError

namespace Context

-- A number, or the value of a constant.
def value (ctx : Context) (cs : Chars) : Read Int :=
  match number? cs with
  | some v => .ok v
  | none =>
    match ctx.constants.lookup (String.ofList (Text.trim cs)) with
    | some v => .ok v
    | none => .error (.number (String.ofList cs))

-- A value of 32 bits, signed or unsigned.
def word (ctx : Context) (cs : Chars) : Read Word := do
  let v ← ctx.value cs
  if -(valueCount 31 : Int) ≤ v ∧ v < valueCount 32 then return BitVec.ofInt 32 v
  else throw (.range32 (String.ofList cs))

-- A value of `bits` bits, signed or unsigned, for a data item.
def item (ctx : Context) (bits : Nat) (cs : Chars) : Read Int := do
  let v ← ctx.value cs
  if -(valueCount (bits - 1) : Int) ≤ v ∧ v < valueCount bits then return v
  else throw (.item (String.ofList cs) bits)

-- A value that is an unsigned word.
def unsignedWord (ctx : Context) (cs : Chars) (e : SourceError) : Read Word := do
  let v ← ctx.value cs
  if 0 ≤ v ∧ v < valueCount 32 then return BitVec.ofInt 32 v else throw e

end Context

def register (cs : Chars) : Read Reg :=
  match Reg.ofText? cs with
  | some r => .ok r
  | none => .error (.register (String.ofList (Text.trim cs)))

-- A text that must be a name.
def name (cs : Chars) (e : String → SourceError) : Read String :=
  if isIdent cs then .ok (String.ofList cs) else .error (e (String.ofList cs))

-- The argument of an operator such as `%pcrel_hi`.
def argument? (operator cs : Chars) : Option Chars :=
  (Text.dropStart? (operator ++ ['(']) cs).bind (Text.dropLast? ')')

namespace Context

def immediate (ctx : Context) (cs : Chars) : Read Imm :=
  let cs := Text.trim cs
  match argument? "%pcrel_hi".toList cs with
  | some arg => (name (Text.trim arg) .symbol).map .hi
  | none =>
    match argument? "%pcrel_lo".toList cs with
    | some arg =>
      (ctx.unsignedWord arg (.anchorOffset (String.ofList arg))).map .lo
    | none => (ctx.word cs).map .value

-- A displacement if the text is a number, else a label.
def target (ctx : Context) (cs : Chars) : Read Target :=
  let cs := Text.trim cs
  match ctx.word cs with
  | .ok disp => .ok (.offset disp)
  | .error _ => (name cs .target).map .label

-- A register and an operand in memory, written `r, imm(base)` or `r, base, imm`.
def registerAndMemory (ctx : Context) (form : String) : List Chars → Read (Reg × Reg × Imm)
  | [r, m] => do
    let some (off, base) := memoryOperand? m | throw (.usage form)
    return (← register r, ← register base, ← ctx.immediate (if off.isEmpty then ['0'] else off))
  | [r, base, off] => do
    return (← register r, ← register base, ← ctx.immediate off)
  | _ => throw (.usage form)

end Context

end RV32IM.Source
