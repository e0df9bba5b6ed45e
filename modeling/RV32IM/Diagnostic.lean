import RV32IM.Source.Error
import RV32IM.Symbol

-- What assembling and linking complain about. A diagnostic never stops the work; whoever reads the
-- log decides what to do with the result.

namespace RV32IM

inductive OperandFault
  -- A label that looks like a name made up by the assembler.
  | reservedLabel (name : String)
  | hiNeedsUpper (symbol : String)
  | loNeedsLow (anchor : String)
  | zerosTooLong (len : Nat)
  deriving DecidableEq

def OperandFault.message : OperandFault → String
  | reservedLabel name => "label `" ++ name ++ "` uses the reserved `@` prefix"
  | hiNeedsUpper symbol => "%pcrel_hi(" ++ symbol ++ ") needs a U-type instruction"
  | loNeedsLow anchor => "%pcrel_lo anchor `" ++ anchor ++ "` needs an I- or S-type instruction"
  | zerosTooLong len => Numeral.decimal len ++ " zero bytes do not fit below 4 GiB"

inductive Diagnostic
  | duplicateSymbol (name : String) (address : Word)
  | undefinedSymbol (name : String) (site : Word)
  | missingHiPair (site anchor : Word)
  -- A displacement that is odd or too far.
  | outOfRange (site : Word) (kind : RelocKind) (value : Int)
  | immediateRange (site : Word) (value : Int) (bits : Nat)
  | badSite (site : Word)
  | badOperand (site : Word) (fault : OperandFault)
  -- The addresses for which a program was assembled and is linked differ.
  | baseMismatch (object config : Word)
  -- A line of source text that was rejected.
  | rejected (line : Nat) (error : SourceError)
  deriving DecidableEq

open Numeral in
def Diagnostic.message : Diagnostic → String
  | duplicateSymbol name addr => "symbol `" ++ name ++ "` already defined at " ++ address addr
  | undefinedSymbol name site =>
    "undefined symbol `" ++ name ++ "` referenced at " ++ address site
  | missingHiPair site anchor =>
    "no %pcrel_hi relocation at " ++ address anchor ++ " for %pcrel_lo at " ++ address site
  | outOfRange site kind value =>
    kind.name ++ " displacement " ++ decimal value ++ " out of range at " ++ address site
  | immediateRange site value bits =>
    "immediate " ++ decimal value ++ " does not fit " ++ decimal bits ++ " bits at " ++
      address site
  | badSite site => "relocation site " ++ address site ++ " lies outside the image"
  | badOperand site fault => "bad operand at " ++ address site ++ ": " ++ fault.message
  | baseMismatch object config =>
    "object assembled at " ++ address object ++ " but the link targets " ++ address config
  | rejected line error => "line " ++ decimal line ++ ": " ++ error.message

end RV32IM
