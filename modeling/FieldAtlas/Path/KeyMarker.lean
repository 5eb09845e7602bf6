import FieldAtlas.Text.Decimal
import FieldAtlas.Text.DecimalDigit

/-!
# `KeyMarker` — `key:7` and `key_7` in running text

A key marker is the word `key`, a colon or an underscore, and a nonempty run of decimal
digits of any script.  Two questions are asked of a text: how many markers it holds, and
which one it opens with.

Counting looks only where a name can begin, at the start of the text and behind a dot or an
underscore, so `monkey:3` holds none.  The scan does not overlap: behind a marker it goes
on after the last digit.

Reading the opening marker takes the digits as a number, which only ASCII digits in range
are; it also swallows one accessor, `key` or `value`, joined on by a dot or an underscore.
-/

namespace FieldAtlas.KeyMarker

/-- What follows `key:` or `key_` at the start of the text. -/
def afterWord? : List Char → Option (List Char)
  | 'k' :: 'e' :: 'y' :: sep :: rest => if sep = ':' ∨ sep = '_' then some rest else none
  | _ => none

/-- The digits of the marker at the start of the text, all that follow on, and the rest. -/
def leading? (s : List Char) : Option (List Char × List Char) := do
  let rest ← afterWord? s
  let ds := rest.takeWhile isDecimalDigit
  if ds = [] then none else some (ds, rest.dropWhile isDecimalDigit)

/-- A name can begin behind this character. -/
def opensName (c : Char) : Bool := c == '.' || c == '_'

/-- Markers from here on, the next `skip` characters belonging to a marker already counted.
`fresh` says that a name can begin here. -/
def countFrom : (skip : Nat) → (fresh : Bool) → List Char → Nat
  | _, _, [] => 0
  | skip + 1, _, c :: rest => countFrom skip (opensName c) rest
  | 0, false, c :: rest => countFrom 0 (opensName c) rest
  | 0, true, c :: rest =>
    match leading? (c :: rest) with
    | none => countFrom 0 (opensName c) rest
    | some (ds, _) => countFrom (3 + ds.length) (opensName c) rest + 1

/-- The number of key markers in a dotted or flattened path. -/
def count (s : String) : Nat := countFrom 0 true s.toList

/-- The text without one `key` or `value` accessor at its start. -/
def dropAccessor : List Char → List Char
  | sep :: 'k' :: 'e' :: 'y' :: rest =>
    if opensName sep then rest else sep :: 'k' :: 'e' :: 'y' :: rest
  | sep :: 'v' :: 'a' :: 'l' :: 'u' :: 'e' :: rest =>
    if opensName sep then rest else sep :: 'v' :: 'a' :: 'l' :: 'u' :: 'e' :: rest
  | s => s

/-- The key that the text opens with and what follows its marker and accessor. -/
def read? (s : List Char) : Option (Nat × List Char) := do
  let (ds, rest) ← leading? s
  let k ← Decimal.readKey? ds
  some (k, dropAccessor rest)

end FieldAtlas.KeyMarker
