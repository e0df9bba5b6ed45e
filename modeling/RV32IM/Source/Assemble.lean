import RV32IM.Source.Statement

-- Assembling a source text line by line. A line that is rejected is reported under its number,
-- after whatever it did before the error, and the next line is assembled as usual.

namespace RV32IM.Source

-- The lines of a text. A carriage return before the end of a line is not part of the line, and the
-- end of the last line does not begin another.
def lines (cs : Chars) : List Chars :=
  go [] cs
where
  go (acc : Chars) : Chars → List Chars
    | [] => if acc.isEmpty then [] else [acc.reverse]
    | '\n' :: cs =>
      (match acc with
        | '\r' :: acc => acc.reverse
        | acc => acc.reverse) :: go [] cs
    | c :: cs => go (c :: acc) cs

structure State where
  session   : Session
  constants : List (String × Int)

namespace State

def step (st : State) (number : Nat) (cs : Chars) : State :=
  let r := line ⟨st.constants, st.session.room⟩ cs
  let session := st.session.run r.stmts
  { session :=
      match r.error with
      | some e => session.report (.rejected number e)
      | none => session
    constants := r.constant.toList ++ st.constants }

-- Carries out lines that are numbered from `number` on.
def steps (st : State) (number : Nat) : List Chars → State
  | [] => st
  | cs :: rest => steps (st.step number cs) (number + 1) rest

end State

def assemble (source : String) (base : Word) : Object :=
  (State.steps ⟨.start base, []⟩ 1 (lines source.toList)).session.toObject

end RV32IM.Source
