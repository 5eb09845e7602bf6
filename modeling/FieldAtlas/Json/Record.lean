import FieldAtlas.Json.Basic

/-!
# `Json.Record` — reading values and records out of JSON

A decoder answers with an `Option`; no reason is kept for a refusal.

A record is an object.  Members that the record does not know are passed over, whatever they
hold, and a known member may occur once only.  A record may also be written as an array, its
fields by position from the first on; those past the end of the array are absent.
-/

namespace FieldAtlas.Json

def str? : Json → Option String
  | str s => some s
  | _ => none

def bool? : Json → Option Bool
  | bool b => some b
  | _ => none

/-- An integer between two bounds. -/
def intIn? (lo hi : Int) : Json → Option Int
  | int n => if lo ≤ n ∧ n ≤ hi then some n else none
  | _ => none

/-- A signed word of 64 bits. -/
def int64? (j : Json) : Option Int64 :=
  (j.intIn? (-0x8000000000000000) 0x7fffffffffffffff).map Int64.ofInt

/-- A signed word of 32 bits. -/
def int32? (j : Json) : Option Int32 :=
  (j.intIn? (-0x80000000) 0x7fffffff).map Int32.ofInt

/-- An unsigned word of 64 bits. -/
def nat64? (j : Json) : Option Nat := (j.intIn? 0 0xffffffffffffffff).map Int.toNat

def list? {α : Type} (decode : Json → Option α) : Json → Option (List α)
  | arr items => items.mapM decode
  | _ => none

def strings? : Json → Option (List String) := list? str?

/-- What may stand behind a name that carries nothing: `null`, and if `loose` also an empty object. -/
def isNothing (loose : Bool) : Json → Bool
  | null => true
  | obj [] => loose
  | _ => false

/-- A name of a closed list: the string, or an object with the name as its only key and nothing
behind it. -/
def name? {α : Type} (loose : Bool) (ofName? : String → Option α) : Json → Option α
  | str s => ofName? s
  | obj [(s, value)] => if value.isNothing loose then ofName? s else none
  | _ => none

/-- Whether each of the known keys occurs once at most. -/
def unrepeated (known : List String) (members : List (String × Json)) : Bool :=
  known.all fun key => (members.filter (·.1 == key)).length ≤ 1

/-- The members of a record with the given fields. -/
def record? (known : List String) : Json → Option (List (String × Json))
  | obj members => if unrepeated known members then some members else none
  | arr items => if items.length ≤ known.length then some (known.zip items) else none
  | _ => none

/-- A field that must be present. -/
def required? {α : Type} (members : List (String × Json)) (key : String)
    (decode : Json → Option α) : Option α :=
  (members.lookup key).bind decode

/-- A field that stands for `default` when it is absent. -/
def optional? {α : Type} (members : List (String × Json)) (key : String)
    (decode : Json → Option α) (default : α) : Option α :=
  match members.lookup key with
  | none => some default
  | some value => decode value

/-- A text, or `null`, which is none. -/
def text? : Json → Option (Option String)
  | null => some none
  | value => value.str?.map some

/-- A text that may be absent, or `null`, which is the same. -/
def comment? (members : List (String × Json)) (key : String) : Option (Option String) :=
  optional? members key text? none

/-- A map of texts, as pairs with distinct keys; of a repeated key the last value counts. -/
def dictionary? : Json → Option (List (String × String))
  | obj members => do
    let pairs ← members.mapM fun (key, value) => value.str?.map (key, ·)
    some (pairs.foldr (fun p kept => if kept.any (·.1 == p.1) then kept else p :: kept) [])
  | _ => none

mutual
/-- Whether the value denotes something through and through. -/
def isReadable : Json → Bool
  | unreadable => false
  | arr items => areReadable items
  | obj members => membersReadable members
  | _ => true

def areReadable : List Json → Bool
  | [] => true
  | item :: rest => item.isReadable && areReadable rest

def membersReadable : List (String × Json) → Bool
  | [] => true
  | (_, value) :: rest => value.isReadable && membersReadable rest
end

end FieldAtlas.Json
