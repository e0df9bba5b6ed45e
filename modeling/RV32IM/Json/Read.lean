import RV32IM.Json

-- Reading JSON. A text is one value, with white space around it and nothing else.

namespace RV32IM.Json

abbrev Chars := List Char

def isSpace (c : Char) : Bool :=
  c == ' ' || c == '\n' || c == '\t' || c == '\r'

def skipSpace (cs : Chars) : Chars :=
  cs.dropWhile isSpace

def digits1? (cs : Chars) : Option (Chars × Chars) :=
  let ds := cs.takeWhile Char.isDigit
  if ds.isEmpty then none else some (ds, cs.drop ds.length)

-- The whole part of a number, which does not begin with a zero unless it is one.
def whole? : Chars → Option (Chars × Chars)
  | '0' :: cs => some (['0'], cs)
  | cs => digits1? cs

def fraction? : Chars → Option (Chars × Chars)
  | '.' :: cs => (digits1? cs).map fun (ds, cs) => ('.' :: ds, cs)
  | cs => some ([], cs)

def exponent? : Chars → Option (Chars × Chars)
  | e :: cs =>
    if e = 'e' ∨ e = 'E' then
      match cs with
      | '+' :: cs => (digits1? cs).map fun (ds, cs) => (e :: '+' :: ds, cs)
      | '-' :: cs => (digits1? cs).map fun (ds, cs) => (e :: '-' :: ds, cs)
      | cs => (digits1? cs).map fun (ds, cs) => (e :: ds, cs)
    else some ([], e :: cs)
  | [] => some ([], [])

def unsigned? (cs : Chars) : Option (Chars × Chars) := do
  let (w, cs) ← whole? cs
  let (f, cs) ← fraction? cs
  let (e, cs) ← exponent? cs
  return (w ++ f ++ e, cs)

def number? : Chars → Option (Json × Chars)
  | '-' :: cs => (unsigned? cs).map fun (n, cs) => (.num (String.ofList ('-' :: n)), cs)
  | cs => (unsigned? cs).map fun (n, cs) => (.num (String.ofList n), cs)

-- The unit that four hexadecimal digits denote.
def unit? (a b c d : Char) : Option Nat :=
  (Numeral.digits 16 65536 0 [a, b, c, d]).toOption

def simpleEscape? : Char → Option Char
  | '"' => some '"'
  | '\\' => some '\\'
  | '/' => some '/'
  | 'b' => some (Char.ofNat 8)
  | 'f' => some (Char.ofNat 12)
  | 'n' => some '\n'
  | 'r' => some '\r'
  | 't' => some '\t'
  | _ => none

def isHighSurrogate (n : Nat) : Bool :=
  0xD800 ≤ n && n < 0xDC00

def isLowSurrogate (n : Nat) : Bool :=
  0xDC00 ≤ n && n < 0xE000

-- The characters of code units; there are none if a surrogate lacks its other half.
def charsOfUnits? : List (Char ⊕ Nat) → Option Chars
  | [] => some []
  | .inl c :: us => (charsOfUnits? us).map (c :: ·)
  | .inr n :: us =>
    if isHighSurrogate n then
      match us with
      | .inr m :: us =>
        if isLowSurrogate m then
          (charsOfUnits? us).map
            (Char.ofNat (0x10000 + (n - 0xD800) * 1024 + (m - 0xDC00)) :: ·)
        else none
      | _ => none
    else if isLowSurrogate n then none
    else (charsOfUnits? us).map (Char.ofNat n :: ·)

-- The rest of a string after its opening quote: characters, and the units of numeric escapes.
def stringUnits? : Chars → Option (List (Char ⊕ Nat) × Chars)
  | [] => none
  | '"' :: cs => some ([], cs)
  | '\\' :: cs =>
    match cs with
    | 'u' :: a :: b :: c :: d :: cs => do
      let n ← unit? a b c d
      let (us, cs) ← stringUnits? cs
      return (.inr n :: us, cs)
    | e :: cs => do
      let x ← simpleEscape? e
      let (us, cs) ← stringUnits? cs
      return (.inl x :: us, cs)
    | [] => none
  | c :: cs =>
    if c.toNat < 32 then none
    else do
      let (us, cs) ← stringUnits? cs
      return (.inl c :: us, cs)

def string? (cs : Chars) : Option (Option String × Chars) :=
  (stringUnits? cs).map fun (us, cs) => ((charsOfUnits? us).map String.ofList, cs)

mutual

-- A value, with white space in front of it.
def value? : (fuel : Nat) → Chars → Option (Json × Chars)
  | 0, _ => none
  | fuel + 1, cs =>
    match skipSpace cs with
    | 'n' :: 'u' :: 'l' :: 'l' :: cs => some (.null, cs)
    | 't' :: 'r' :: 'u' :: 'e' :: cs => some (.bool true, cs)
    | 'f' :: 'a' :: 'l' :: 's' :: 'e' :: cs => some (.bool false, cs)
    | '"' :: cs => (string? cs).map fun (s, cs) => (.str s, cs)
    | '[' :: cs =>
      match skipSpace cs with
      | ']' :: cs => some (.arr [], cs)
      | cs => (items? fuel cs).map fun (vs, cs) => (.arr vs, cs)
    | '{' :: cs =>
      match skipSpace cs with
      | '}' :: cs => some (.obj [], cs)
      | cs => (fields? fuel cs).map fun (fs, cs) => (.obj fs, cs)
    | cs => number? cs

-- The items of an array up to its closing bracket, one at least.
def items? : (fuel : Nat) → Chars → Option (List Json × Chars)
  | 0, _ => none
  | fuel + 1, cs => do
    let (v, cs) ← value? fuel cs
    match skipSpace cs with
    | ',' :: cs => (items? fuel cs).map fun (vs, cs) => (v :: vs, cs)
    | ']' :: cs => some ([v], cs)
    | _ => none

-- The fields of an object up to its closing brace, one at least.
def fields? : (fuel : Nat) → Chars → Option (List (Option String × Json) × Chars)
  | 0, _ => none
  | fuel + 1, cs =>
    match skipSpace cs with
    | '"' :: cs => do
      let (name, cs) ← string? cs
      match skipSpace cs with
      | ':' :: cs =>
        let (v, cs) ← value? fuel cs
        match skipSpace cs with
        | ',' :: cs => (fields? fuel cs).map fun (fs, cs) => ((name, v) :: fs, cs)
        | '}' :: cs => some ([(name, v)], cs)
        | _ => none
      | _ => none
    | _ => none

end

-- Reads a text. Each level of nesting takes one character and two units of fuel.
def read? (text : String) : Option Json :=
  let cs := text.toList
  match value? (2 * cs.length + 2) cs with
  | some (v, rest) => if (skipSpace rest).isEmpty then some v else none
  | none => none

end RV32IM.Json
