import RV32IM.Json
import RV32IM.Listing

-- Listings and tables of segments as plain text and as JSON.

namespace RV32IM.Listing

def Line.render (l : Line) : String :=
  match l.bytes with
  | some bytes => Numeral.address l.addr ++ ": " ++ bytes ++ "   " ++ l.text ++ "\n"
  | none => Numeral.address l.addr ++ ": " ++ l.text ++ "\n"

def Line.toJson (l : Line) : Json :=
  .ofFields ([("addr", .ofInt l.addr.toNat)] ++
    (l.bytes.map fun bytes => ("bytes", Json.ofString bytes)).toList ++
    [("text", .ofString l.text)])

def linesText (ls : List Line) : String :=
  String.join (ls.map Line.render)

def linesJson (ls : List Line) : String :=
  (Json.arr (ls.map Line.toJson)).pretty ++ "\n"

-- A text with blanks after it up to a width.
def padded (width : Nat) (s : String) : String :=
  s ++ String.ofList (List.replicate (width - s.length) ' ')

def row (name first stop perms kind : String) : String :=
  padded 10 name ++ " " ++ padded 10 first ++ " " ++ padded 10 stop ++ " " ++ padded 6 perms ++
    " " ++ padded 6 kind ++ "\n"

def Segment.row (s : Segment) : String :=
  Listing.row s.name (Numeral.address s.base)
    (Numeral.address (s.base + BitVec.ofNat 32 s.size)) s.access.text s.kind.text

def Segment.toJson (s : Segment) : Json :=
  .ofFields [
    ("name", .ofString s.name),
    ("base", .ofInt s.base.toNat),
    ("size", .ofInt s.size),
    ("perms", .ofString s.access.text),
    ("kind", .ofString s.kind.text)]

namespace Image

def sectionsText (img : Image) : String :=
  row "name" "start" "end" "perms" "kind" ++ String.join (img.segments.map Segment.row) ++
    match img.entry with
    | some entry => "entry " ++ Numeral.address entry ++ "\n"
    | none => ""

def sectionsJson (img : Image) : String :=
  (Json.ofFields [
    ("entry", match img.entry with
      | some entry => .ofInt entry.toNat
      | none => .null),
    ("segments", .arr (img.segments.map Segment.toJson))]).pretty ++ "\n"

end Image

end RV32IM.Listing
