import RV32IM.Session.Stmt
import RV32IM.Source.Operand
import RV32IM.Source.Quoted

-- From the text of a line to statements. What a line means depends on the constants named before it
-- and on nothing else, but for the size of a run of zeros, which must fit the room that is left.

namespace RV32IM.Source

open Context

-- What a line asks for: statements, which are carried out even if an error follows them, and a
-- constant that it names.
structure Reading where
  stmts    : List Stmt := []
  constant : Option (String × Int) := none
  error    : Option SourceError := none

def Reading.ofRead : Read (List Stmt) → Reading
  | .ok stmts => { stmts }
  | .error e => { error := some e }

-- One statement for each operand, up to the first operand that is bad.
def items (read : Chars → Read Stmt) : List Chars → Reading
  | [] => {}
  | op :: ops =>
    match read op with
    | .error e => { error := some e }
    | .ok stmt =>
      let r := items read ops
      { r with stmts := stmt :: r.stmts }

-- A word: a number or the name of a symbol.
def wordItem (ctx : Context) (op : Chars) : Read Stmt :=
  match ctx.word op with
  | .ok w => .ok (.word w)
  | .error e => if isIdent op then .ok (.wordOf (String.ofList op)) else .error e

def numberItem (ctx : Context) (n : Nat) (op : Chars) : Read Stmt := do
  let v ← ctx.item (8 * n) op
  return .bytes (LittleEndian.encode n (v % valueCount (8 * n)).toNat)

def stringBytes (terminated : Bool) (rest : Chars) : Read (List Stmt) := do
  let bs ← Quoted.read rest
  return [.bytes (if terminated then bs ++ [0] else bs)]

def zeroRun (ctx : Context) : List Chars → Read (List Stmt)
  | [op] => do
    let n ← ctx.value op
    if n < 0 then throw .negativeSize
    if n.toNat > ctx.room then throw (.pastEnd n.toNat)
    return [.zeros n.toNat]
  | _ => throw (.usage ".zero n")

-- Alignment to a power of two that is given by its exponent.
def alignPower (ctx : Context) : List Chars → Read (List Stmt)
  | [op] => do
    let n ← ctx.value op
    if 0 ≤ n ∧ n ≤ 12 then return [.align (1 <<< n.toNat)] else throw (.alignmentPower n)
  | _ => throw (.usage ".align n")

def isPowerOfTwo (n : Nat) : Bool :=
  (List.range 13).any fun k => n == 1 <<< k

-- Alignment to a number of bytes, which must be a power of two of at most a page.
def alignBytes (ctx : Context) : List Chars → Read (List Stmt)
  | [op] => do
    let n ← ctx.value op
    if 0 < n ∧ isPowerOfTwo n.toNat then return [.align n.toNat] else throw (.alignment n)
  | _ => throw (.usage ".balign n")

def directive (ctx : Context) (name : String) (rest : Chars) : Reading :=
  let ops := operands rest
  match name with
  | ".word" => items (wordItem ctx) ops
  | ".half" => items (numberItem ctx 2) ops
  | ".byte" => items (numberItem ctx 1) ops
  | ".ascii" => .ofRead (stringBytes false rest)
  | ".asciz" | ".string" => .ofRead (stringBytes true rest)
  | ".zero" | ".space" => .ofRead (zeroRun ctx ops)
  | ".align" | ".p2align" => .ofRead (alignPower ctx ops)
  | ".balign" => .ofRead (alignBytes ctx ops)
  | ".text" | ".data" | ".globl" | ".global" | ".section" => {}
  | _ => { error := some (.directive name) }

def usage (op : Op) : String :=
  let mn := op.mnemonic
  match op.format with
  | .reg => mn ++ " rd, rs1, rs2"
  | .imm => if op = .jalr then "jalr rd, imm(rs1)" else mn ++ " rd, rs1, imm"
  | .load => mn ++ " rd, imm(rs1)"
  | .shift => mn ++ " rd, rs1, shamt"
  | .store => mn ++ " rs2, imm(rs1)"
  | .branch => mn ++ " rs1, rs2, target"
  | .upper => mn ++ " rd, imm"
  | .jump => "jal [rd,] target"
  | .system | .fence => mn

def instruction (ctx : Context) (op : Op) (ops : List Chars) : Read Stmt :=
  match h : op.format, ops with
  | .reg, [rd, rs1, rs2] => do
    return .register op (← register rd) (← register rs1) (← register rs2) h
  | .imm, ops =>
    if op = .jalr then
      match ops with
      | [rs1] => do return .immediate op .ra (← register rs1) (.value 0) (.imm h)
      | ops => do
        let (rd, rs1, imm) ← ctx.registerAndMemory (usage op) ops
        return .immediate op rd rs1 imm (.imm h)
    else
      match ops with
      | [rd, rs1, imm] => do
        return .immediate op (← register rd) (← register rs1) (← ctx.immediate imm) (.imm h)
      | _ => throw (.usage (usage op))
  | .load, ops => do
    let (rd, rs1, imm) ← ctx.registerAndMemory (usage op) ops
    return .immediate op rd rs1 imm (.load h)
  | .shift, [rd, rs1, amount] => do
    let v ← ctx.unsignedWord amount (.shiftAmount (String.ofList amount))
    return .shift op (← register rd) (← register rs1) v h
  | .store, ops => do
    let (src, base, imm) ← ctx.registerAndMemory (usage op) ops
    return .store op src base imm h
  | .branch, [rs1, rs2, target] => do
    let t ← ctx.target target
    return .branch op (← register rs1) (← register rs2) t h
  | .upper, [rd, imm] => do
    return .upper op (← register rd) (← ctx.immediate imm) h
  | .jump, [target] => do return .jump op .ra (← ctx.target target) h
  | .jump, [rd, target] => do return .jump op (← register rd) (← ctx.target target) h
  | .fence, _ => return .bare op
  | .system, [] => return .bare op
  | _, _ => throw (.usage (usage op))

-- A branch that compares a register with zero.
def branchOnZero (ctx : Context) (op : Op) (h : op.format = .branch) :
    List Chars → Read (List Stmt)
  | [rs, target] => do
    let t ← ctx.target target
    return [.branch op (← register rs) .zero t h]
  | _ => throw (.usage "beqz rs, target")

-- An instruction or a pseudo-instruction.
def mnemonic (ctx : Context) (mn : String) (ops : List Chars) : Read (List Stmt) :=
  match mn, ops with
  | "invalid", [] => return [.halt]
  | "nop", [] => return [.nop]
  | "mv", [rd, rs] => do return [.mv (← register rd) (← register rs)]
  | "li", [rd, value] => do
    let v ← ctx.word value
    return Stmt.li (← register rd) v
  | "la", [rd, symbol] => do
    let sym ← name symbol .symbol
    return Stmt.la (← register rd) sym
  | "call", [symbol] => do return Stmt.call (← name symbol .symbol)
  | "j", [target] => do return [.j (← ctx.target target)]
  | "jr", [rs] => do return [.jr (← register rs)]
  | "ret", [] => return [.ret]
  | "beqz", ops => branchOnZero ctx .beq rfl ops
  | "bnez", ops => branchOnZero ctx .bne rfl ops
  | "invalid", _ | "nop", _ | "ret", _ => throw (.usage mn)
  | "mv", _ => throw (.usage "mv rd, rs")
  | "li", _ => throw (.usage "li rd, value")
  | "la", _ => throw (.usage "la rd, symbol")
  | "call", _ => throw (.usage "call symbol")
  | "j", _ => throw (.usage "j target")
  | "jr", _ => throw (.usage "jr rs")
  | _, ops =>
    match Op.ofMnemonic? mn.toList with
    | some op => do return [← instruction ctx op ops]
    | none => throw (.mnemonic mn)

-- The value text of a line that names a constant: what follows `equ` and one blank.
def constantValue? (rest : Chars) : Option Chars :=
  match Text.splitFirst? Text.isBlank rest with
  | some (keyword, value) => if Text.lower keyword = "equ".toList then some value else none
  | none => none

-- A statement without labels in front of it.
def statement (ctx : Context) (cs : Chars) : Reading :=
  let (head, rest) := headAndRest cs
  match constantValue? rest with
  | some value =>
    if isIdent head then
      match ctx.value value with
      | .ok v => { constant := some (String.ofList head, v) }
      | .error e => { error := some e }
    else { error := some (.constantName (String.ofList head)) }
  | none =>
    let mn := String.ofList (Text.lower head)
    if head.head? = some '.' then directive ctx mn rest
    else .ofRead (mnemonic ctx mn (operands rest))

-- A line: labels, then a statement, then a comment; all may be missing.
def line (ctx : Context) (cs : Chars) : Reading :=
  let (names, rest) := labels (Text.trim (stripComment .outside cs))
  let bindings := names.map fun n => Stmt.label (String.ofList n)
  let r := if rest.isEmpty then {} else statement ctx rest
  { r with stmts := bindings ++ r.stmts }

end RV32IM.Source
