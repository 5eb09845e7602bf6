import FieldAtlas.Json.Basic
import FieldAtlas.Text.Decimal

/-!
# `Json.Printer` — JSON values as text

The compact form: no blanks, objects in the order of their pairs.  Only quotes, backslashes
and control characters are escaped.
-/

namespace FieldAtlas.Json

/-- A hexadecimal digit. -/
def hexDigit (n : Nat) : Char := Nat.digitChar (n % 16)

/-- One character inside a string. -/
def escape (c : Char) : List Char :=
  if c = '"' then ['\\', '"']
  else if c = '\\' then ['\\', '\\']
  else if c.toNat < 0x20 then
    ['\\', 'u', '0', '0', hexDigit (c.toNat / 16), hexDigit c.toNat]
  else [c]

/-- A string in quotes. -/
def quote (s : String) : String :=
  String.ofList ('"' :: (s.toList.flatMap escape ++ ['"']))

mutual
/-- Appends the text of a value. -/
def print (out : String) : Json → String
  | null => out ++ "null"
  | bool true => out ++ "true"
  | bool false => out ++ "false"
  | int n => out ++ Decimal.text n
  | real spelling => out ++ spelling
  | str s => out ++ quote s
  | arr items => (printItems (out.push '[') true items).push ']'
  | obj members => (printMembers (out.push '\x7b') true members).push '\x7d'
  | unreadable => out ++ "null"

def printItems (out : String) (first : Bool) : List Json → String
  | [] => out
  | item :: rest => printItems (print (if first then out else out.push ',') item) false rest

def printMembers (out : String) (first : Bool) : List (String × Json) → String
  | [] => out
  | (key, value) :: rest =>
    printMembers (print (((if first then out else out.push ',') ++ quote key).push ':') value)
      false rest
end

/-- A value as text. -/
def text (j : Json) : String := print "" j

end FieldAtlas.Json
