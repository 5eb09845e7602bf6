/-!
# `Json` — the values of JSON texts

Two points of this type are chosen for what decoders have to tell apart.

* An integer is an `int` only if it is written as one (no point, no exponent, not `-0`) and
  fits in a signed or unsigned word of 64 bits; every other number is a `real` and keeps its
  spelling.  So `1` and `1.0` differ.
* `unreadable` stands where the text is well-formed and yet denotes nothing: half a surrogate
  pair, a number too large for a double, nesting past the limit.  Whoever wants the value
  fails on it, and whoever passes over it does not.

Objects are lists of pairs in the order of the text, repeated keys included, because a decoder
must be able to refuse a repeated key.
-/

namespace FieldAtlas

/-- A JSON value. -/
inductive Json where
  | null
  | bool (b : Bool)
  | int (n : Int)
  | real (spelling : String)
  | str (s : String)
  | arr (items : List Json)
  | obj (members : List (String × Json))
  | unreadable

namespace Json

/-- The integers that are kept as such. -/
def isWord (n : Int) : Bool := -0x8000000000000000 ≤ n && n < 0x10000000000000000

/-- An absent value is written as `null`. -/
def ofOption {α : Type} (encode : α → Json) : Option α → Json
  | none => null
  | some a => encode a

def strings (xs : List String) : Json := arr (xs.map str)

end Json

end FieldAtlas
