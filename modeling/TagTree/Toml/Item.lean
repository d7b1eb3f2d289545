/-!
# TOML tables

The value of a TOML text. Tables remember how they came about, because that
decides how they may be extended: a table in braces or under a header is
complete, one that only the header of another table implies may still get its
own header, and one that dotted keys make may get further dotted keys. The two
ways in which a text adds to a table, `assign` for a key and `openTable` or
`openElement` for a header, keep these rules. Floats and dates are recognised
but their values are not kept.

`Item` is a value: a string, a number, a truth value, an array, a table with its
fields in the order of the text, or a list of tables under repeated headers.
Fields are looked up by their keys, and no key occurs twice, because both
operations that add a field look first.

`assign` follows dotted keys from the open table. The tables on the way may be
made by dotted keys before, and those under a header or in braces are closed to
it. `descend` follows a header from the root. It goes through tables of every
kind and into the last of a list of tables, and what is missing on the way is
implied.
-/
namespace TagTree.Toml

inductive TableKind where
  | complete
  | implied
  | dotted
deriving DecidableEq, Repr, Inhabited

inductive Item where
  | string (s : String)
  | integer (n : Int)
  | float
  | bool (b : Bool)
  | date
  | array (items : List Item)
  /-- A table in braces. -/
  | inline (fields : List (String × Item))
  | table (kind : TableKind) (fields : List (String × Item))
  /-- Tables under repeated headers in double brackets. -/
  | tables (elements : List (List (String × Item)))
deriving Repr, Inhabited

abbrev Fields := List (String × Item)

def Fields.has (fields : Fields) (key : String) : Bool := fields.any (·.1 == key)

def Fields.replace (fields : Fields) (key : String) (v : Item) : Fields :=
  fields.map fun f => if f.1 = key then (key, v) else f

def onLast (f : Fields → Option Fields) (elements : List Fields) : Option (List Fields) :=
  match elements.getLast? with
  | some last => (f last).map (elements.dropLast ++ [·])
  | none => none

/-- Give `key` a value in the table that the dotted keys of `path` lead to. -/
def assign (key : String) (v : Item) : List String → Fields → Option Fields
  | [], fields => if fields.has key then none else some (fields ++ [(key, v)])
  | k :: rest, fields =>
    match fields.lookup k with
    | none => (assign key v rest []).map fun sub => fields ++ [(k, .table .dotted sub)]
    | some (.table kind sub) =>
      if kind = .complete ∨ (rest = [] ∧ kind ≠ .dotted) then none
      else (assign key v rest sub).map fun sub => fields.replace k (.table kind sub)
    | some (.tables elements) =>
      if rest = [] then none
      else (onLast (assign key v rest) elements).map fun es => fields.replace k (.tables es)
    | some _ => none

/-- Apply `f` to the table that the keys of a header lead to; missing tables are implied. -/
def descend (f : Fields → Option Fields) : List String → Fields → Option Fields
  | [], fields => f fields
  | k :: rest, fields =>
    match fields.lookup k with
    | none => (descend f rest []).map fun sub => fields ++ [(k, .table .implied sub)]
    | some (.table kind sub) =>
      (descend f rest sub).map fun sub => fields.replace k (.table kind sub)
    | some (.tables elements) =>
      (onLast (descend f rest) elements).map fun es => fields.replace k (.tables es)
    | some _ => none

/-- Open the table of a header; an implied one becomes complete, any other may not be there. -/
def openTable (key : String) (fields : Fields) : Option Fields :=
  match fields.lookup key with
  | none => some (fields ++ [(key, .table .complete [])])
  | some (.table .implied sub) => some (fields.replace key (.table .complete sub))
  | some _ => none

/-- Open one more table of a header in double brackets. -/
def openElement (key : String) (fields : Fields) : Option Fields :=
  match fields.lookup key with
  | none => some (fields ++ [(key, .tables [[]])])
  | some (.tables elements) => some (fields.replace key (.tables (elements ++ [[]])))
  | some _ => none

end TagTree.Toml
