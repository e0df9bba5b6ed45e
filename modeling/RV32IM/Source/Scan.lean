import RV32IM.Text.Blank

-- The shape of a line of assembly text: its comment, its labels, its operands. Quotes are tracked
-- so that what stands in a string literal is not taken for punctuation.

namespace RV32IM.Source

abbrev Chars := List Char

-- Whether a position is in a string literal, and if so whether a backslash precedes it.
inductive Quoting
  | outside
  | inside
  | escaped
  deriving DecidableEq

def Quoting.next : Quoting → Char → Quoting
  | outside, c => if c = '"' then inside else outside
  | inside, c => if c = '\\' then escaped else if c = '"' then outside else inside
  | escaped, _ => inside

-- What precedes the comment of a line.
def stripComment (q : Quoting) : Chars → Chars
  | [] => []
  | c :: cs =>
    if q = .outside ∧ (c = ';' ∨ c = '#') then [] else c :: stripComment (q.next c) cs

def isIdentStart (c : Char) : Bool :=
  c.isAlpha || c == '_' || c == '.' || c == '$'

def isIdentRest (c : Char) : Bool :=
  isIdentStart c || c.isDigit

-- Whether a text is the name of a symbol or a constant.
def isIdent : Chars → Bool
  | [] => false
  | c :: cs => isIdentStart c && cs.all isIdentRest

def consFirst (c : Char) : List Chars → List Chars
  | [] => [[c]]
  | p :: ps => (c :: p) :: ps

-- Splits at the commas that are in neither a string literal nor parentheses.
def pieces (q : Quoting) (depth : Int) : Chars → List Chars
  | [] => [[]]
  | c :: cs =>
    if q = .outside ∧ depth = 0 ∧ c = ',' then [] :: pieces q depth cs
    else
      let depth :=
        if q = .outside ∧ c = '(' then depth + 1
        else if q = .outside ∧ c = ')' then depth - 1
        else depth
      consFirst c (pieces (q.next c) depth cs)

-- The operands of a statement, without white space around them.
def operands (cs : Chars) : List Chars :=
  match Text.trim cs with
  | [] => []
  | cs => (pieces .outside 0 cs).map Text.trim

-- The labels in front of a statement, and the statement.
def labels (cs : Chars) : List Chars × Chars :=
  match _h : Text.splitFirst? (· = ':') cs with
  | none => ([], cs)
  | some (before, after) =>
    let name := Text.trim before
    if isIdent name then
      let (names, rest) := labels (Text.trim after)
      (name :: names, rest)
    else ([], cs)
termination_by cs.length
decreasing_by
  have := Text.length_splitFirst? _h
  have := Text.length_trim_le after
  omega

-- The first word of a statement, and what follows without white space around it.
def headAndRest (cs : Chars) : Chars × Chars :=
  (cs.takeWhile (!Text.isBlank ·), Text.trim (cs.dropWhile (!Text.isBlank ·)))

-- An operand in memory: the parts before the last opening parenthesis and inside it.
def memoryOperand? (cs : Chars) : Option (Chars × Chars) := do
  let (inside, before) ← Text.splitFirst? (· = '(') cs.reverse
  let inside ← Text.dropLast? ')' inside.reverse
  return (Text.trim before.reverse, Text.trim inside)

end RV32IM.Source
