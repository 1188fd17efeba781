namespace TypeCalculus

inductive LogFormat
  | text | tree | json
deriving DecidableEq, Repr

namespace LogFormat

/-- The code points with the property White_Space, as ranges. -/
def blankRanges : List (Nat × Nat) :=
  [(0x09, 0x0d), (0x20, 0x20), (0x85, 0x85), (0xa0, 0xa0), (0x1680, 0x1680), (0x2000, 0x200a),
   (0x2028, 0x2029), (0x202f, 0x202f), (0x205f, 0x205f), (0x3000, 0x3000)]

def isBlank (c : Char) : Bool :=
  blankRanges.any fun (first, last) => first ≤ c.toNat && c.toNat ≤ last

def trim (text : List Char) : List Char :=
  ((text.dropWhile isBlank).reverse.dropWhile isBlank).reverse

/-- Reads the name of a format, whatever its case and the blanks around it; an unknown name means
plain text. No character beyond ASCII has one of these letters as its lower-case form. -/
def ofName (name : String) : LogFormat :=
  match String.ofList ((trim name.toList).map Char.toLower) with
  | "tree" => .tree
  | "json" => .json
  | _ => .text

def name : LogFormat → String
  | .text => "text"
  | .tree => "tree"
  | .json => "json"

/-- Logging is set up only when a filter asks for it. -/
def isRequested (filters : List (Option String)) : Bool := filters.any Option.isSome

end LogFormat

end TypeCalculus
