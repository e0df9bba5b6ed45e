import RV32IM.Source.Error
import RV32IM.Source.Scan
import RV32IM.Text.Utf8

-- String literals and the bytes they denote. A character denotes its UTF-8 bytes and an escape one
-- byte.

namespace RV32IM.Source.Quoted

def simpleEscape? : Char → Option Byte
  | 'n' => some 10
  | 't' => some 9
  | 'r' => some 13
  | '0' => some 0
  | '\\' => some 92
  | '"' => some 34
  | _ => none

def hexByte (ds : List Char) : Except SourceError Byte :=
  match Numeral.natural 16 256 ds with
  | .ok n => .ok (BitVec.ofNat 8 n)
  | .error _ => .error (.hexEscape (String.ofList ds))

-- The bytes of the text between the quotes of a literal. A hexadecimal escape takes the next two
-- characters, or what is left of them.
def decode : Chars → Except SourceError (List Byte)
  | [] => .ok []
  | c :: cs =>
    if c = '\\' then
      match cs with
      | [] => .error .danglingEscape
      | e :: cs =>
        if e = 'x' then
          match cs with
          | a :: b :: cs => do
            let x ← hexByte [a, b]
            return x :: (← decode cs)
          | ds => do return [← hexByte ds]
        else
          match simpleEscape? e with
          | some b => do return b :: (← decode cs)
          | none => .error (.unknownEscape e)
    else do return Utf8.encodeChar c ++ (← decode cs)

def body? (cs : Chars) : Option Chars :=
  (Text.dropStart? ['"'] (Text.trim cs)).bind (Text.dropLast? '"')

-- The bytes of a literal with white space around it.
def read (cs : Chars) : Except SourceError (List Byte) :=
  match body? cs with
  | some body => decode body
  | none => .error (.unquoted (String.ofList cs))

end RV32IM.Source.Quoted
