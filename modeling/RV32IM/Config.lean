import RV32IM.Hart
import RV32IM.Json.Read
import RV32IM.Link
import RV32IM.Text.Blank

-- The configuration of a run and its JSON text. A field that is missing has its default; a record
-- may also be written as the array of its fields, where the last ones may be missing.

namespace RV32IM

namespace Access

def named : List (String × Access) :=
  [("READ", read), ("WRITE", write), ("EXECUTE", execute)]

-- One part of a set of permissions: a name, or hexadecimal digits after `0x`.
def part? (cs : List Char) : Option Access :=
  match cs with
  | '0' :: 'x' :: ds => (Numeral.natural 16 256 ds).toOption.map fun n => ⟨BitVec.ofNat 8 n⟩
  | cs => named.lookup (String.ofList cs)

def splitBars : List Char → List (List Char)
  | [] => [[]]
  | c :: cs =>
    if c = '|' then [] :: splitBars cs
    else match splitBars cs with
    | [] => [[c]]
    | p :: ps => (c :: p) :: ps

-- Reads a set of permissions: parts between bars, or nothing at all.
def ofText? (s : String) : Option Access :=
  if (Text.trim s.toList).isEmpty then some Access.none
  else ((splitBars s.toList).mapM fun p => part? (Text.trim p)).map fun parts =>
    ⟨parts.foldl (fun bits a => bits ||| a.bits) 0⟩

-- Writes a set of permissions by name. Bits that have no name follow as one number.
def flagsText (a : Access) : String :=
  let names := (named.filter fun f => a.allows f.2).map (·.1)
  let left := a.bits &&& ~~~all.bits
  " | ".intercalate (if left = 0 then names else names ++ ["0x" ++ Numeral.hex left.toNat])

end Access

structure RunConfig where
  hart : HartConfig := {}
  link : LinkConfig := {}
  deriving DecidableEq

namespace Json

-- A number below a limit that is written with digits alone.
def natural? (limit : Nat) : Json → Option Nat
  | .num text =>
    if text.toList.all Char.isDigit then (Numeral.natural 10 limit text.toList).toOption else none
  | _ => none

def word? (v : Json) : Option Word :=
  (v.natural? (valueCount 32)).map (BitVec.ofNat 32)

def asString? : Json → Option String
  | .str s => s
  | _ => none

-- The values of named fields, as far as they are there. Other fields do not matter, but a name that
-- occurs twice does.
def record? (names : List String) : Json → Option (List (Option Json))
  | .arr vs =>
    if vs.length ≤ names.length then
      some ((vs.map some) ++ List.replicate (names.length - vs.length) none)
    else none
  | .obj fields =>
    if fields.any (·.1.isNone) then none
    else names.mapM fun name =>
      match fields.filter (·.1 = some name) with
      | [] => some none
      | [f] => some (some f.2)
      | _ => none
  | _ => none

def field? {α : Type} (default : α) (read : Json → Option α) : Option Json → Option α
  | none => some default
  | some v => read v

end Json

namespace HartConfig

-- Only the stack pointer may be null.
def initialSp? : Json → Option (Option Word)
  | .null => some none
  | v => v.word?.map some

def ofJson? (v : Json) : Option HartConfig := do
  match ← v.record? ["watchdog", "initial_sp"] with
  | [watchdog, sp] =>
    return {
      watchdog := ← Json.field? 2000 (·.natural? (valueCount 64)) watchdog
      initialSp := ← Json.field? none initialSp? sp }
  | _ => none

def toJson (cfg : HartConfig) : Json :=
  .ofFields [
    ("watchdog", .ofInt cfg.watchdog),
    ("initial_sp", match cfg.initialSp with
      | some sp => .ofInt sp.toNat
      | none => .null)]

end HartConfig

namespace LinkConfig

def ofJson? (v : Json) : Option LinkConfig := do
  let default : LinkConfig := {}
  match ← v.record? ["base", "text_access", "stack_size", "entry_symbol"] with
  | [base, access, size, entry] =>
    return {
      base := ← Json.field? default.base (·.word?) base
      textAccess := ← Json.field? default.textAccess (·.asString? >>= Access.ofText?) access
      stackSize := ← Json.field? default.stackSize (·.natural? (valueCount 32)) size
      entrySymbol := ← Json.field? default.entrySymbol (·.asString?) entry }
  | _ => none

def toJson (cfg : LinkConfig) : Json :=
  .ofFields [
    ("base", .ofInt cfg.base.toNat),
    ("text_access", .ofString cfg.textAccess.flagsText),
    ("stack_size", .ofInt cfg.stackSize),
    ("entry_symbol", .ofString cfg.entrySymbol)]

end LinkConfig

namespace RunConfig

def ofJson? (v : Json) : Option RunConfig := do
  match ← v.record? ["cpu", "link"] with
  | [hart, link] =>
    return {
      hart := ← Json.field? {} HartConfig.ofJson? hart
      link := ← Json.field? {} LinkConfig.ofJson? link }
  | _ => none

def toJson (cfg : RunConfig) : Json :=
  .ofFields [("cpu", cfg.hart.toJson), ("link", cfg.link.toJson)]

def ofText? (text : String) : Option RunConfig :=
  (Json.read? text).bind ofJson?

end RunConfig

end RV32IM
