import RV32IM.Command

-- The options and other arguments of a command line.

namespace RV32IM.Command

structure OptionSpec where
  name      : String
  short     : Option Char := none
  -- A switch has no value.
  hasValue  : Bool := true

-- The arguments of a command. No option occurs twice.
structure Args where
  options     : List (String × String) := []
  positionals : List String := []

namespace Args

def add? (a : Args) (name value : String) : Option Args :=
  if (a.options.lookup name).isSome then none
  else some { a with options := (name, value) :: a.options }

def value? (a : Args) (name : String) : Option String :=
  a.options.lookup name

def isSet (a : Args) (name : String) : Bool :=
  (a.value? name).isSome

end Args

-- Whether an argument is meant as an option, and so cannot be the value of one.
def isOption (arg : String) : Bool :=
  arg.toList.head? = some '-' && arg ≠ "-"

-- The name of an option in an argument, and the value that comes with it.
def splitOption (specs : List OptionSpec) (arg : List Char) :
    Option (OptionSpec × Option String) :=
  match arg with
  | '-' :: '-' :: cs =>
    let name := String.ofList (cs.takeWhile (· ≠ '='))
    let value := match cs.dropWhile (· ≠ '=') with
      | '=' :: v => some (String.ofList v)
      | _ => none
    (specs.find? (·.name = name)).map (·, value)
  | '-' :: c :: cs =>
    let value := match cs with
      | [] => none
      | '=' :: v => some (String.ofList v)
      | v => some (String.ofList v)
    (specs.find? (·.short = some c)).map (·, value)
  | _ => none

-- Reads arguments up to a number of positionals or a double dash, and gives what is left of them.
def scan (specs : List OptionSpec) (limit : Nat) (acc : Args) :
    List String → Option (Args × List String)
  | [] => some (acc, [])
  | arg :: rest =>
    if acc.positionals.length = limit ∨ arg = "--" then some (acc, arg :: rest)
    else if isOption arg then
      match splitOption specs arg.toList with
      | none => none
      | some (spec, some value) =>
        if spec.hasValue then (acc.add? spec.name value).bind (scan specs limit · rest) else none
      | some (spec, none) =>
        if spec.hasValue then
          match rest with
          | [] => none
          | value :: rest =>
            if isOption value then none
            else (acc.add? spec.name value).bind (scan specs limit · rest)
        else (acc.add? spec.name "").bind (scan specs limit · rest)
    else scan specs limit { acc with positionals := acc.positionals ++ [arg] } rest

-- Reads all arguments of a command with `count` positionals. After a double dash there are only
-- positionals.
def parse (specs : List OptionSpec) (count : Nat) (args : List String) : Attempt Args :=
  match scan specs (count + 1) {} args with
  | some (a, rest) =>
    let a := { a with positionals := a.positionals ++ rest.drop 1 }
    if a.positionals.length = count then .ok a else .error .usage
  | none => .error .usage

-- The value of an option for a number of 64 bits.
def Args.natural (a : Args) (name : String) : Attempt (Option Nat) :=
  match a.value? name with
  | none => .ok none
  | some s =>
    match Numeral.natural 10 (valueCount 64) s.toList with
    | .ok n => .ok (some n)
    | .error _ => .error .usage

-- The value of an option for a word. It is read as a signed number, so that zero may be negative.
def Args.word (a : Args) (name : String) : Attempt (Option Word) :=
  match a.value? name with
  | none => .ok none
  | some s =>
    match Numeral.integer? 10 s.toList with
    | some n => if 0 ≤ n ∧ n < valueCount 32 then .ok (some (BitVec.ofInt 32 n)) else .error .usage
    | none => .error .usage

def Args.choice {α : Type} (a : Args) (name : String) (choices : List (String × α)) (default : α) :
    Attempt α :=
  match a.value? name with
  | none => .ok default
  | some s =>
    match choices.lookup s with
    | some v => .ok v
    | none => .error .usage

def pathArg (s : String) : Attempt String :=
  if s.isEmpty then .error .usage else .ok s

def Args.path (a : Args) (name : String) : Attempt (Option String) :=
  match a.value? name with
  | none => .ok none
  | some s => (pathArg s).map some

end RV32IM.Command
