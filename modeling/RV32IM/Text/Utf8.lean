import RV32IM.Word
import RV32IM.Text.Numeral

-- UTF-8. Decoding refuses overlong forms, halves of surrogate pairs and numbers past the last code
-- point, and says where and why it stopped.

namespace RV32IM.Utf8

def encodeChar (c : Char) : List Byte :=
  (String.utf8EncodeChar c).map UInt8.toBitVec

def encode (cs : List Char) : List Byte :=
  cs.flatMap encodeChar

def ofString (s : String) : List Byte :=
  encode s.toList

-- The first place where bytes are not UTF-8. `length` counts the bytes there that cannot be read
-- on; there is none when the bytes end inside a character.
structure Fault where
  index  : Nat
  length : Option Nat
  deriving DecidableEq

def Fault.message (f : Fault) : String :=
  match f.length with
  | some n =>
    "invalid utf-8 sequence of " ++ Numeral.decimal n ++ " bytes from index " ++
      Numeral.decimal f.index
  | none => "incomplete utf-8 byte sequence from index " ++ Numeral.decimal f.index

-- Whether a byte may continue a character.
def isTail (b : Nat) : Bool :=
  0x80 ≤ b && b < 0xC0

-- Whether a byte may follow the first of three.
def isSecondOfThree (a b : Nat) : Bool :=
  isTail b && (a != 0xE0 || 0xA0 ≤ b) && (a != 0xED || b < 0xA0)

-- Whether a byte may follow the first of four.
def isSecondOfFour (a b : Nat) : Bool :=
  isTail b && (a != 0xF0 || 0x90 ≤ b) && (a != 0xF4 || b < 0x90)

-- Decodes from position `i` on, after characters that are kept in reverse.
def decodeFrom (i : Nat) (acc : List Char) : List Byte → Except Fault (List Char)
  | [] => .ok acc.reverse
  | a :: bs =>
    let u := a.toNat
    if u < 0x80 then decodeFrom (i + 1) (Char.ofNat u :: acc) bs
    else if u < 0xC2 || 0xF5 ≤ u then .error ⟨i, some 1⟩
    else match bs with
    | [] => .error ⟨i, none⟩
    | b :: cs =>
      let v := b.toNat
      if u < 0xE0 then
        if isTail v then
          decodeFrom (i + 2) (Char.ofNat ((u - 0xC0) * 64 + (v - 0x80)) :: acc) cs
        else .error ⟨i, some 1⟩
      else if u < 0xF0 then
        if !isSecondOfThree u v then .error ⟨i, some 1⟩
        else match cs with
        | [] => .error ⟨i, none⟩
        | c :: ds =>
          let w := c.toNat
          if isTail w then
            let n := (u - 0xE0) * 4096 + (v - 0x80) * 64 + (w - 0x80)
            decodeFrom (i + 3) (Char.ofNat n :: acc) ds
          else .error ⟨i, some 2⟩
      else
        if !isSecondOfFour u v then .error ⟨i, some 1⟩
        else match cs with
        | [] => .error ⟨i, none⟩
        | c :: ds =>
          let w := c.toNat
          if !isTail w then .error ⟨i, some 2⟩
          else match ds with
          | [] => .error ⟨i, none⟩
          | d :: es =>
            let x := d.toNat
            if isTail x then
              let n := (u - 0xF0) * 262144 + (v - 0x80) * 4096 + (w - 0x80) * 64 + (x - 0x80)
              decodeFrom (i + 4) (Char.ofNat n :: acc) es
            else .error ⟨i, some 3⟩

def decode (bs : List Byte) : Except Fault (List Char) :=
  decodeFrom 0 [] bs

end RV32IM.Utf8
