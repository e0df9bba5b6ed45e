import RV32IM.Text.Numeral

-- JSON values and their text, compact or spread over lines.

namespace RV32IM

-- A JSON value. Numbers are kept as they are written. A string, or the name of a field, is absent
-- where its escapes name half of a surrogate pair, which is no character.
inductive Json
  | null
  | bool (b : Bool)
  | num (text : String)
  | str (s : Option String)
  | arr (items : List Json)
  | obj (fields : List (Option String × Json))

namespace Json

def ofInt (n : Int) : Json :=
  .num (Numeral.decimal n)

def ofString (s : String) : Json :=
  .str (some s)

def ofFields (fields : List (String × Json)) : Json :=
  .obj (fields.map fun (name, v) => (some name, v))

-- A character of a string. Only quotes, backslashes and control characters are escaped.
def escape (c : Char) : String :=
  if c = '"' then "\\\""
  else if c = '\\' then "\\\\"
  else if c.toNat = 8 then "\\b"
  else if c.toNat = 9 then "\\t"
  else if c.toNat = 10 then "\\n"
  else if c.toNat = 12 then "\\f"
  else if c.toNat = 13 then "\\r"
  else if c.toNat < 32 then "\\u" ++ Numeral.hexPadded 4 c.toNat
  else c.toString

def quote (s : Option String) : String :=
  "\"" ++ String.join ((s.getD "").toList.map escape) ++ "\""

-- How values are laid out: what begins a new line at a depth, and what follows a name.
structure Style where
  newline : Nat → String
  colon   : String

def compactStyle : Style := ⟨fun _ => "", ":"⟩

-- One item a line, two blanks deeper at each level.
def prettyStyle : Style :=
  ⟨fun depth => "\n" ++ String.ofList (List.replicate (2 * depth) ' '), ": "⟩

mutual

def render (style : Style) (depth : Nat) : Json → String
  | .null => "null"
  | .bool b => if b then "true" else "false"
  | .num text => text
  | .str s => quote s
  | .arr [] => "[]"
  | .arr (v :: vs) =>
    "[" ++ style.newline (depth + 1) ++ render style (depth + 1) v ++
      renderItems style (depth + 1) vs ++ style.newline depth ++ "]"
  | .obj [] => "\x7b\x7d"
  | .obj ((name, v) :: fs) =>
    "\x7b" ++ style.newline (depth + 1) ++ quote name ++ style.colon ++
      render style (depth + 1) v ++ renderFields style (depth + 1) fs ++ style.newline depth ++
      "\x7d"

def renderItems (style : Style) (depth : Nat) : List Json → String
  | [] => ""
  | v :: vs => "," ++ style.newline depth ++ render style depth v ++ renderItems style depth vs

def renderFields (style : Style) (depth : Nat) : List (Option String × Json) → String
  | [] => ""
  | (name, v) :: fs =>
    "," ++ style.newline depth ++ quote name ++ style.colon ++ render style depth v ++
      renderFields style depth fs

end

def compact (v : Json) : String :=
  v.render compactStyle 0

def pretty (v : Json) : String :=
  v.render prettyStyle 0

end Json

end RV32IM
