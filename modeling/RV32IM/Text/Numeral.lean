import RV32IM.Word

-- Numbers as text: reading digits of a radix under a limit, and printing in decimal and
-- hexadecimal.

namespace RV32IM.Numeral

inductive Fault
  | empty
  | invalidDigit
  | tooLarge
  deriving DecidableEq

def Fault.message : Fault → String
  | empty => "cannot parse integer from empty string"
  | invalidDigit => "invalid digit found in string"
  | tooLarge => "number too large to fit in target type"

-- The value of a digit, if it is one of the radix. Letters of either case follow the nine.
def digit? (radix : Nat) (c : Char) : Option Nat :=
  let value :=
    if '0' ≤ c && c ≤ '9' then c.toNat - '0'.toNat
    else if 'a' ≤ c && c ≤ 'z' then c.toNat - 'a'.toNat + 10
    else if 'A' ≤ c && c ≤ 'Z' then c.toNat - 'A'.toNat + 10
    else radix
  if value < radix then some value else none

-- Reads digits on from a value. The first fault from the left is the one reported.
def digits (radix limit : Nat) : Nat → List Char → Except Fault Nat
  | v, [] => .ok v
  | v, c :: cs =>
    match digit? radix c with
    | none => .error .invalidDigit
    | some d =>
      if v * radix + d < limit then digits radix limit (v * radix + d) cs else .error .tooLarge

-- A number below `limit`: digits, after one plus sign at most.
def natural (radix limit : Nat) : List Char → Except Fault Nat
  | [] => .error .empty
  | ['+'] => .error .invalidDigit
  | '+' :: cs => digits radix limit 0 cs
  | cs => digits radix limit 0 cs

-- A signed number of 64 bits: digits, after one sign at most.
def integer? (radix : Nat) : List Char → Option Int
  | ['-'] => none
  | '-' :: cs => (digits radix (valueCount 63 + 1) 0 cs).toOption.map fun (n : Nat) => -(n : Int)
  | cs => (natural radix (valueCount 63) cs).toOption.map fun (n : Nat) => (n : Int)

-- Decimal digits, after a minus sign if the number is negative.
def decimal : Int → String
  | .ofNat n => String.ofList (Nat.toDigits 10 n)
  | .negSucc n => String.ofList ('-' :: Nat.toDigits 10 (n + 1))

-- Decimal digits after a sign, which is a plus sign for zero.
def signed (n : Int) : String :=
  if 0 ≤ n then "+" ++ decimal n else decimal n

-- The fewest hexadecimal digits, in lower case.
def hex (n : Nat) : String :=
  String.ofList (Nat.toDigits 16 n)

-- Hexadecimal digits, in lower case, filled up with zeros to a width.
def hexPadded (width n : Nat) : String :=
  let ds := Nat.toDigits 16 n
  String.ofList (List.replicate (width - ds.length) '0' ++ ds)

-- An address or a word as messages and listings show it.
def address (w : BitVec 32) : String :=
  "0x" ++ hexPadded 8 w.toNat

end RV32IM.Numeral
