import TagTree.Json.Value
import TagTree.Query.Basic

/-!
# Saved queries as JSON

A saved query is an object with the names of the dictionary, the bytes of the
stream and the user's description, or an array of the three in this order.
Missing parts are empty, unknown fields are passed over, and a field given twice
is an error, as is a byte not written as a plain number.

The reader is over values of JSON that were parsed already. An object is read
field by field into three places that start out empty, and `Fields.note` is the
one step: it fills a place, passes over an unknown field, and fails where a
place is filled already. What the values are is looked at when all fields are
there. An array is read by position, and what is missing at its end counts as
missing in an object.

Bytes are numbers between 0 and 255 in plain digits. Strings have to be text, so
an escaped surrogate without its partner in a name or a description makes the
whole reading fail, but in a field that is passed over it does not matter.
-/
namespace TagTree.SavedQuery

open Json

def listOf {α : Type} (one : Value → Option α) : Value → Option (List α)
  | .array items => items.mapM one
  | _ => none

def textOf? : Value → Option String
  | .string pieces => Json.text? pieces
  | _ => none

def decimal (digits : List Char) : Nat :=
  digits.foldl (fun n d => 10 * n + (d.toNat - 48)) 0

def byteOf? : Value → Option UInt8
  | .number spelling =>
    if spelling.all Char.isDigit && decimal spelling < 256 then
      some (UInt8.ofNat (decimal spelling))
    else none
  | _ => none

/-- The values of the three fields, as far as they were given. -/
structure Fields where
  dictionary : Option Value := none
  stream : Option Value := none
  userDescription : Option Value := none
deriving Repr, Inhabited

/-- Note a field; an unknown one changes nothing and a second one of a name is an error. -/
def Fields.note (f : Fields) (name : String) (v : Value) : Option Fields :=
  if name = "tag_dictionary" then
    if f.dictionary.isSome then none else some { f with dictionary := some v }
  else if name = "token_stream" then
    if f.stream.isSome then none else some { f with stream := some v }
  else if name = "user_description" then
    if f.userDescription.isSome then none else some { f with userDescription := some v }
  else some f

def fieldsOf : Fields → List (List Piece × Value) → Option Fields
  | f, [] => some f
  | f, (key, v) :: rest => do
    let name ← Json.text? key
    fieldsOf (← f.note name v) rest

def optional {α : Type} (default : α) (read : Value → Option α) : Option Value → Option α
  | none => some default
  | some v => read v

def ofFields (f : Fields) : Option SavedQuery := do
  let dictionary ← optional [] (listOf textOf?) f.dictionary
  let stream ← optional [] (listOf byteOf?) f.stream
  let userDescription ← optional "" textOf? f.userDescription
  some { dictionary, stream, userDescription }

def ofValue? : Value → Option SavedQuery
  | .object fields => do ofFields (← fieldsOf {} fields)
  | .array items =>
    if items.length ≤ 3 then ofFields ⟨items[0]?, items[1]?, items[2]?⟩ else none
  | _ => none

def ofJson? (text : String) : Option SavedQuery := do ofValue? (← Json.parse text)

end TagTree.SavedQuery
