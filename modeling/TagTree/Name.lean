import TagTree.Text.Characters

/-!
# Tag names

A tag name is a dotted path such as `Effect.Damage.Fire`. This file says which
names are accepted, how a name splits into segments, and which names are its
ancestors. Acceptance is a property of the full name: an ancestor of an accepted
name may itself be refused, as `None` is below `None.Other`.

A name is refused when it is empty, when a dot stands at one of its ends or next
to another dot, when it is the reserved word, and when one of its characters is
a blank or a delimiter of the text form. The faults are looked for in this
order, and the first one found is reported with its own wording.

Names are taken apart in two ways. `splitDots` cuts a list of characters at the
dots, so that it always has a first piece, and `stems` gives the characters
before each dot, which are the names of the ancestors. A child's name is the
name of its parent with a segment behind a dot; the root has the empty name and
adds no dot.
-/
namespace TagTree

inductive NameFault where
  | empty
  | dotAtEnd
  | emptySegment
  | reserved
  | blank
  | delimiter
deriving DecidableEq, Repr

def NameFault.message : NameFault → String
  | .empty => "empty name"
  | .dotAtEnd => "cannot start or end with '.'"
  | .emptySegment => "empty segment"
  | .reserved => "'None' is reserved for the empty tag"
  | .blank => "contains whitespace"
  | .delimiter => "contains a reserved character"

namespace Name

/-- The name that stands for no tag at all. -/
def none : String := "None"

/-- The pieces between the dots; at least one, possibly empty. -/
def splitDots : List Char → List (List Char)
  | [] => [[]]
  | c :: cs =>
    if c = '.' then [] :: splitDots cs
    else match splitDots cs with
      | [] => [[c]]
      | s :: rest => (c :: s) :: rest

/-- The characters before each dot, shortest first. -/
def stems : List Char → List (List Char)
  | [] => []
  | c :: cs =>
    let deeper := (stems cs).map (c :: ·)
    if c = '.' then [] :: deeper else deeper

/-- Segments from the root down. -/
def segments (name : String) : List String :=
  (splitDots name.toList).map String.ofList

def ancestors (name : String) : List String :=
  ((stems name.toList).map String.ofList).reverse

/-- The name of the child `segment` below `stem`; the empty stem is the root. -/
def child (stem segment : String) : String :=
  if stem = "" then segment else stem ++ "." ++ segment

/-- The first `length` characters of a name. -/
def upTo (length : Nat) (name : String) : String := String.ofList (name.toList.take length)

def simple (name : String) : String :=
  ((segments name).getLast?).getD ""

/-- Characters with a meaning in the text form. -/
def isDelimiter (c : Char) : Bool :=
  c = '"' || c = '\'' || c = ',' || c = '(' || c = ')' || c = '=' || c = '\\'

/-- The first reason to refuse `name`, if there is one. -/
def fault? (name : String) : Option NameFault :=
  let cs := name.toList
  if cs.isEmpty then some .empty
  else if cs.head? = some '.' || cs.getLast? = some '.' then some .dotAtEnd
  else if (splitDots cs).any List.isEmpty then some .emptySegment
  else if name = none then some .reserved
  else match cs.find? fun c => isBlank c || isDelimiter c with
    | some c => some (if isBlank c then .blank else .delimiter)
    | Option.none => Option.none

/-- An accepted name has no fault. -/
def Valid (name : String) : Prop := fault? name = Option.none

instance (name : String) : Decidable (Valid name) :=
  inferInstanceAs (Decidable (fault? name = Option.none))

end Name
end TagTree
