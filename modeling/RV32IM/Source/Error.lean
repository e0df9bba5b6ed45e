import RV32IM.Text.Numeral

-- The reasons for which a line of assembly text is rejected.

namespace RV32IM

inductive SourceError
  -- The operands do not fit the usage of the statement.
  | usage (form : String)
  | register (text : String)
  | number (text : String)
  | range32 (text : String)
  | symbol (text : String)
  | anchorOffset (text : String)
  | target (text : String)
  | shiftAmount (text : String)
  -- A number that does not fit a data item of the given width in bits.
  | item (text : String) (bits : Nat)
  | unquoted (text : String)
  | danglingEscape
  | hexEscape (digits : String)
  | unknownEscape (c : Char)
  | negativeSize
  -- A run of zeros that ends past the last address.
  | pastEnd (len : Nat)
  | alignmentPower (power : Int)
  | alignment (bytes : Int)
  | directive (name : String)
  | mnemonic (name : String)
  | constantName (name : String)
  deriving DecidableEq

def SourceError.message : SourceError → String
  | usage form => "expected `" ++ form ++ "`"
  | register text => "unknown register `" ++ text ++ "`"
  | number text => "bad number `" ++ text ++ "`"
  | range32 text => "`" ++ text ++ "` does not fit 32 bits"
  | symbol text => "bad symbol `" ++ text ++ "`"
  | anchorOffset text => "bad %pcrel_lo offset `" ++ text ++ "`"
  | target text => "bad branch target `" ++ text ++ "`"
  | shiftAmount text => "bad shift amount `" ++ text ++ "`"
  | item text bits => "`" ++ text ++ "` does not fit " ++ Numeral.decimal bits ++ " bits"
  | unquoted text => "expected a quoted string, got `" ++ text ++ "`"
  | danglingEscape => "dangling `\\` in string"
  | hexEscape digits => "bad escape `\\x" ++ digits ++ "`"
  | unknownEscape c => "unknown escape `\\" ++ c.toString ++ "`"
  | negativeSize => "negative size"
  | pastEnd len => Numeral.decimal len ++ " bytes run past the end of the address space"
  | alignmentPower power => "alignment 2^" ++ Numeral.decimal power ++ " out of range"
  | alignment bytes => "alignment " ++ Numeral.decimal bytes ++ " is not a power of two"
  | directive name => "unknown directive `" ++ name ++ "`"
  | mnemonic name => "unknown mnemonic `" ++ name ++ "`"
  | constantName name => "bad constant name `" ++ name ++ "`"

end RV32IM
