import FieldAtlas.Json.Basic
import FieldAtlas.Json.DoubleRange

/-!
# `Json.Reader` — reading JSON texts

A strict reader: no comments, no comma before a closing bracket, no byte order mark, no raw
control character in a string, and nothing but blanks behind the value.

Faults come in two kinds.  What is not JSON at all makes the whole text unread.  What is JSON
and denotes nothing becomes `Json.unreadable` at its place: a string that holds half a
surrogate pair, an object with such a key, a number too large for a double (`exceedsDoubles`),
and an array or object nested deeper than the limit.

Each function takes a text and returns what it read with the rest.  The mutual recursion of
values, items and members is bounded by a count of calls that the text cannot use up, since
every second call takes at least one character off it (`read?`).
-/

namespace FieldAtlas.Json.Reader

def isBlank (c : Char) : Bool := c == ' ' || c == '\t' || c == '\n' || c == '\r'

def skipBlanks (s : List Char) : List Char := s.dropWhile isBlank

/-! ## Strings

A string is read as code points first.  The surrogates among them can only come from escapes,
and pairing them is a second pass over the list. -/

/-- The value of a hexadecimal digit of either case. -/
def hexValue? (c : Char) : Option Nat :=
  if c.isDigit then some (c.toNat - 48)
  else if 'a' ≤ c && c ≤ 'f' then some (c.toNat - 87)
  else if 'A' ≤ c && c ≤ 'F' then some (c.toNat - 55)
  else none

/-- Four hexadecimal digits as a number. -/
def unit? (a b c d : Char) : Option Nat := do
  some ((((← hexValue? a) * 16 + (← hexValue? b)) * 16 + (← hexValue? c)) * 16 + (← hexValue? d))

/-- The character that a short escape stands for. -/
def shortEscape? : Char → Option Char
  | '"' => some '"'
  | '\\' => some '\\'
  | '/' => some '/'
  | 'b' => some '\x08'
  | 'f' => some '\x0c'
  | 'n' => some '\n'
  | 'r' => some '\r'
  | 't' => some '\t'
  | _ => none

/-- The code points up to the closing quote, and what follows it. -/
def points? : List Char → Option (List Nat × List Char)
  | [] => none
  | '"' :: rest => some ([], rest)
  | '\\' :: 'u' :: a :: b :: c :: d :: rest => do
    let u ← unit? a b c d
    let (ps, rest) ← points? rest
    some (u :: ps, rest)
  | '\\' :: e :: rest => do
    let c ← shortEscape? e
    let (ps, rest) ← points? rest
    some (c.toNat :: ps, rest)
  | c :: rest =>
    if c.toNat < 0x20 || c == '\\' then none
    else do
      let (ps, rest) ← points? rest
      some (c.toNat :: ps, rest)

def isHighSurrogate (p : Nat) : Bool := 0xD800 ≤ p && p < 0xDC00

def isLowSurrogate (p : Nat) : Bool := 0xDC00 ≤ p && p < 0xE000

/-- Characters from code points, every high surrogate taken together with the low one behind
it.  A surrogate without its other half denotes nothing. -/
def pairUp? : List Nat → Option (List Char)
  | [] => some []
  | [p] => if isHighSurrogate p || isLowSurrogate p then none else some [Char.ofNat p]
  | p :: q :: rest =>
    if isHighSurrogate p then
      if isLowSurrogate q then
        (pairUp? rest).map (Char.ofNat (0x10000 + (p - 0xD800) * 0x400 + (q - 0xDC00)) :: ·)
      else none
    else if isLowSurrogate p then none
    else (pairUp? (q :: rest)).map (Char.ofNat p :: ·)

/-- The string behind an opening quote; `none` inside if it denotes nothing. -/
def string? (s : List Char) : Option (Option String × List Char) := do
  let (ps, rest) ← points? s
  some ((pairUp? ps).map String.ofList, rest)

/-! ## Numbers -/

/-- Takes the digits off the front; there must be one. -/
def digits? (s : List Char) : Option (List Char × List Char) :=
  match s.takeWhile Char.isDigit with
  | [] => none
  | d :: ds => some (d :: ds, s.dropWhile Char.isDigit)

/-- The digits behind a point, none if there is no point. -/
def fraction? : List Char → Option (List Char × List Char)
  | '.' :: rest => digits? rest
  | s => some ([], s)

/-- The exponent, if there is one. -/
def exponent? (s : List Char) : Option (Option Int × List Char) :=
  match s with
  | e :: rest =>
    if e == 'e' || e == 'E' then
      match rest with
      | '-' :: rest => (digits? rest).map fun (ds, rest) =>
          (some (-(Nat.ofDigitChars 10 ds 0 : Int)), rest)
      | '+' :: rest => (digits? rest).map fun (ds, rest) =>
          (some (Nat.ofDigitChars 10 ds 0 : Int), rest)
      | rest => (digits? rest).map fun (ds, rest) =>
          (some (Nat.ofDigitChars 10 ds 0 : Int), rest)
    else some (none, s)
  | [] => some (none, s)

/-- The value of a number: an integer where it is written as one and fits. -/
def numberValue (negative : Bool) (whole fraction : List Char) (exponent : Option Int)
    (spelling : List Char) : Json :=
  let n : Int := Nat.ofDigitChars 10 whole 0
  let signed := if negative then -n else n
  if fraction.isEmpty && exponent.isNone && !(negative && n == 0) && isWord signed then int signed
  else if exceedsDoubles whole fraction (exponent.getD 0) then unreadable
  else real (String.ofList spelling)

/-- A number, its sign already taken off. -/
def magnitude? (negative : Bool) (s : List Char) : Option (Json × List Char) := do
  let (whole, rest) ← digits? s
  if whole.length > 1 && whole.head? == some '0' then none
  else
    let (fraction, rest) ← fraction? rest
    let (exponent, rest) ← exponent? rest
    let spelling := s.take (s.length - rest.length)
    some (numberValue negative whole fraction exponent
      (if negative then '-' :: spelling else spelling), rest)

/-! ## Values -/

/-- The pairs of an object, unless one of the keys denotes nothing. -/
def keyed? : List (Option String × Json) → Option (List (String × Json))
  | [] => some []
  | (key, value) :: rest => do some ((← key, value) :: (← keyed? rest))

mutual
/-- A value; `room` is how much deeper arrays and objects may nest. -/
def value? (calls room : Nat) (s : List Char) : Option (Json × List Char) :=
  match calls with
  | 0 => none
  | calls + 1 =>
    match s with
    | 'n' :: 'u' :: 'l' :: 'l' :: rest => some (null, rest)
    | 't' :: 'r' :: 'u' :: 'e' :: rest => some (bool true, rest)
    | 'f' :: 'a' :: 'l' :: 's' :: 'e' :: rest => some (bool false, rest)
    | '"' :: rest => do
      let (text, rest) ← string? rest
      some (match text with | some t => str t | none => unreadable, rest)
    | '-' :: rest => magnitude? true rest
    | '[' :: rest => do
      let (items, rest) ← match skipBlanks rest with
        | ']' :: rest => some ([], rest)
        | rest => items? calls (room - 1) rest
      some (if room = 0 then unreadable else arr items, rest)
    | '\x7b' :: rest => do
      let (members, rest) ← match skipBlanks rest with
        | '\x7d' :: rest => some ([], rest)
        | rest => members? calls (room - 1) rest
      some (match room, keyed? members with
        | _ + 1, some members => obj members
        | _, _ => unreadable, rest)
    | s => magnitude? false s

/-- The items up to the closing bracket; there is at least one. -/
def items? (calls room : Nat) (s : List Char) : Option (List Json × List Char) :=
  match calls with
  | 0 => none
  | calls + 1 => do
    let (item, rest) ← value? calls room (skipBlanks s)
    match skipBlanks rest with
    | ']' :: rest => some ([item], rest)
    | ',' :: rest => do
      let (items, rest) ← items? calls room rest
      some (item :: items, rest)
    | _ => none

/-- The members up to the closing brace; there is at least one. -/
def members? (calls room : Nat) (s : List Char) :
    Option (List (Option String × Json) × List Char) :=
  match calls with
  | 0 => none
  | calls + 1 => do
    let (key, rest) ← match skipBlanks s with
      | '"' :: rest => string? rest
      | _ => none
    let (value, rest) ← match skipBlanks rest with
      | ':' :: rest => value? calls room (skipBlanks rest)
      | _ => none
    match skipBlanks rest with
    | '\x7d' :: rest => some ([(key, value)], rest)
    | ',' :: rest => do
      let (members, rest) ← members? calls room rest
      some ((key, value) :: members, rest)
    | _ => none
end

/-- Reads a whole text in which arrays and objects nest at most `depth` deep. -/
def read? (depth : Nat) (text : String) : Option Json := do
  let s := text.toList
  let (value, rest) ← value? (2 * s.length + 2) depth (skipBlanks s)
  if (skipBlanks rest).isEmpty then some value else none

end FieldAtlas.Json.Reader
