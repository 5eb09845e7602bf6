import FieldAtlas.Failure
import FieldAtlas.Path.KeyMarker
import FieldAtlas.Path.TypeTag

/-!
# `Path` — the grammar of access paths

    path    ::= body [ ":" tag ]
    body    ::= segment { "." segment }
    segment ::= "key:" digits | name
    name    ::= one or more characters other than "." and ":"

A trailing tag is taken off only if it is one of the closed list, so every other colon is
left to the body, where it is allowed in a key segment alone.  The digits of a key are
ASCII and stay within `Decimal.maxKey`.  A body may hold one key marker at most, and here the
count is the wide one of `KeyMarker.count`: a marker inside a name counts too.

Segments are read piece by piece between the dots.  A piece must be used up entirely, and the
failure quotes the text from the first character that was not: the dot before a piece that
cannot even begin, or the rest of a piece that ends too early.
-/

namespace FieldAtlas

/-- What stands between two dots of a path. -/
inductive Segment where
  | field (name : String)
  | key (n : Nat)
  deriving DecidableEq, Repr

namespace Segment

def field? : Segment → Option String
  | field name => some name
  | key _ => none

def key? : Segment → Option Nat
  | field _ => none
  | key n => some n

/-- The segment as a path writes it. -/
def chars : Segment → List Char
  | field name => name.toList
  | key n => 'k' :: 'e' :: 'y' :: ':' :: Decimal.digits n

def text (s : Segment) : String := String.ofList s.chars

/-- Segments joined by dots. -/
def joinChars (segments : List Segment) : List Char :=
  List.intercalate ['.'] (segments.map chars)

def join (segments : List Segment) : String := String.ofList (joinChars segments)

/-- The key at the start of a piece and the rest of it. -/
def readKey? : List Char → Option (Segment × List Char)
  | 'k' :: 'e' :: 'y' :: ':' :: rest =>
    (Decimal.readKey? (rest.takeWhile Char.isDigit)).map
      (key ·, rest.dropWhile Char.isDigit)
  | _ => none

/-- The name at the start of a piece and the rest of it. -/
def readName? (piece : List Char) : Option (Segment × List Char) :=
  match piece.takeWhile (· != ':') with
  | [] => none
  | c :: name => some (field (String.ofList (c :: name)), piece.dropWhile (· != ':'))

/-- The segment at the start of a piece and the rest of it; a key comes before a name. -/
def read? (piece : List Char) : Option (Segment × List Char) :=
  readKey? piece <|> readName? piece

/-- Reads every piece to its end, or stops with the text that could not be read.  `lead` is
what stands before the first of the pieces. -/
def readPieces (lead : List Char) : List (List Char) → Except (List Char) (List Segment)
  | [] => .ok []
  | piece :: rest =>
    match read? piece with
    | none => .error (lead ++ List.intercalate ['.'] (piece :: rest))
    | some (segment, []) => (readPieces ['.'] rest).map (segment :: ·)
    | some (_, left) => .error (List.intercalate ['.'] (left :: rest))

end Segment

/-- A path that follows the grammar. -/
structure Path where
  /-- The path as it was given, with its tag. -/
  raw : String
  /-- The path without its tag. -/
  body : String
  segments : List Segment
  tag : Option TypeTag
  deriving DecidableEq, Repr

namespace Path

/-- Takes a trailing tag off, if what follows the last colon is one. -/
def splitTag (raw : String) : String × Option TypeTag :=
  match Text.splitLast ':' raw.toList with
  | none => (raw, none)
  | some (before, after) =>
    match TypeTag.ofSpelling? (String.ofList after) with
    | some tag => (String.ofList before, some tag)
    | none => (raw, none)

/-- Reads a path.  Of several faults the first of this list is reported: nothing to read, more
than one key marker, a piece that is no segment. -/
def parse (raw : String) : Except Failure Path :=
  let (body, tag) := splitTag raw
  if body.isEmpty then .error .emptyPath
  else if KeyMarker.count body > 1 then .error (.manyKeys raw (KeyMarker.count body))
  else
    match Segment.readPieces [] (body.toList.splitOn '.') with
    | .ok segments => .ok ⟨raw, body, segments, tag⟩
    | .error unread => .error (.malformed raw (String.ofList unread))

/-- The key of the path, if one of its segments is a key. -/
def key? (p : Path) : Option Nat := p.segments.findSome? Segment.key?

end Path

end FieldAtlas
