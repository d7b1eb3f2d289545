import TagTree.Toml.Item
import TagTree.Toml.Lexeme

/-!
# TOML documents

A document is a sequence of lines: blank, a comment, a header, or a key with a
value. Values nest to a bounded depth. A reader of a text either gives its table
or refuses the text; where it went wrong is not kept.

Every line adds to the table read so far. A header opens a table, and the keys
of the lines that follow go there until the next header. Strings, arrays, tables
in braces and truth values are told by their first characters, and everything
else is a date, a float or an integer, whichever is recognised first. Arrays may
go over several lines. What a key or a header may add to what is there already
is not decided here but by the two operations on tables.

The bound on the nesting of values and the length of the text make both
recursions structural. A text may begin with a byte order mark, which is
skipped.
-/
namespace TagTree.Toml

def word? : List Char → List Char → Option (List Char)
  | [], cs => some cs
  | _ :: _, [] => none
  | w :: ws, c :: cs => if w = c then word? ws cs else none

/-- A date, a float or an integer, whichever is recognised first. -/
def number (cs : List Char) : Option (Item × List Char) :=
  match dateTime cs with
  | some rest => some (.date, rest)
  | none =>
    match float cs with
    | some rest => some (.float, rest)
    | none => (integer cs).map fun r => (.integer r.1, r.2)

/-- The items of an array after its opening bracket, with blank lines around each and perhaps a comma
after the last. -/
def arrayItems (value : List Char → Option (Item × List Char)) :
    Nat → List Char → Option (List Item × List Char)
  | 0, _ => none
  | bound + 1, cs => do
    match ← skipLines (cs.length + 1) cs with
    | ']' :: rest => some ([], rest)
    | cs => do
      let (v, rest) ← value cs
      match ← skipLines (rest.length + 1) rest with
      | ',' :: rest => do
        let (later, rest) ← arrayItems value bound rest
        some (v :: later, rest)
      | ']' :: rest => some ([v], rest)
      | _ => none

/-- The fields of a table in braces after the first one may start, up to the closing brace. -/
def inlineFields (value : List Char → Option (Item × List Char)) :
    Nat → Fields → List Char → Option (Fields × List Char)
  | 0, _, _ => none
  | bound + 1, fields, cs => do
    let ((path, k), rest) ← key cs
    let (v, rest) ← value (skipTabs (← drop? '=' rest))
    let fields ← assign k v path fields
    match skipTabs rest with
    | ',' :: rest => inlineFields value bound fields rest
    | '}' :: rest => some (fields, rest)
    | _ => none

/-- A value, with at most `levels` arrays and tables inside each other. -/
def value : Nat → List Char → Option (Item × List Char)
  | levels, cs =>
    match cs with
    | '"' :: _ => (string cs).map fun r => (.string r.1, r.2)
    | '\'' :: _ => (string cs).map fun r => (.string r.1, r.2)
    | '[' :: rest =>
      match levels with
      | 0 => none
      | levels + 1 =>
        (arrayItems (value levels) (rest.length + 1) rest).map fun r => (.array r.1, r.2)
    | '{' :: rest =>
      match levels with
      | 0 => none
      | levels + 1 =>
        match skipTabs rest with
        | '}' :: rest => some (.inline [], rest)
        | rest =>
          (inlineFields (value levels) (rest.length + 1) [] rest).map fun r =>
            (.inline r.1, r.2)
    | 't' :: rest => (word? ['r', 'u', 'e'] rest).map (.bool true, ·)
    | 'f' :: rest => (word? ['a', 'l', 's', 'e'] rest).map (.bool false, ·)
    | _ => number cs

/-- The table so far and the header that is open. -/
structure Document where
  root : Fields := []
  path : List String := []
deriving Repr, Inhabited

def Document.set (d : Document) (path : List String) (k : String) (v : Item) : Option Document := do
  some { d with root := ← descend (assign k v path) d.path d.root }

/-- Open a header with `f`, which changes the table above it. -/
def Document.header (d : Document) (f : String → Fields → Option Fields) (path : List String)
    (k : String) : Option Document := do
  some ⟨← descend (f k) path d.root, path ++ [k]⟩

/-- One line that is not blank. -/
def line (d : Document) (cs : List Char) : Option (Document × List Char) :=
  match cs with
  | '[' :: '[' :: rest => do
    let ((path, k), rest) ← key rest
    let rest ← lineEnd? (← word? [']', ']'] rest)
    some (← d.header openElement path k, rest)
  | '[' :: rest => do
    let ((path, k), rest) ← key rest
    let rest ← lineEnd? (← drop? ']' rest)
    some (← d.header openTable path k, rest)
  | _ => do
    let ((path, k), rest) ← key cs
    let (v, rest) ← value (maxDepth - 1) (skipTabs (← drop? '=' rest))
    let rest ← lineEnd? rest
    some (← d.set path k v, rest)

/-- The lines of a document. Each takes at least a character, so the length of the text bounds their
number. -/
def lines : Nat → Document → List Char → Option Document
  | 0, _, _ => none
  | bound + 1, d, cs =>
    match skipTabs cs with
    | [] => some d
    | '#' :: rest =>
      match rest.dropWhile isPrintable with
      | [] => some d
      | rest => do lines bound d (← lineBreak? rest)
    | '\n' :: rest => lines bound d rest
    | '\r' :: rest => do lines bound d (← lineBreak? ('\r' :: rest))
    | cs => do
      let (d, rest) ← line d cs
      lines bound d rest

/-- Skip a byte order mark. -/
def skipMark : List Char → List Char
  | c :: rest => if c.toNat = 0xFEFF then rest else c :: rest
  | [] => []

def parse (text : String) : Option Fields :=
  let cs := skipMark text.toList
  (lines (cs.length + 1) {} cs).map (·.root)

end TagTree.Toml
