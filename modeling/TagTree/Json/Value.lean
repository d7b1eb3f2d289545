import TagTree.Text.Characters

/-!
# JSON

JSON text is read strictly and strings are written. Numbers keep their spelling
and strings their sequence of code units above the characters, so that the users
of a value decide which numbers and strings they accept: an escaped surrogate
without its partner is well-formed syntax but is no text.

Every reader takes the characters that are left and answers what it read with
what is left then, or nothing. A value is told by its first character. Arrays
and objects are read by mutual recursion with the values in them; each value and
each separator takes a character, so the length of the text bounds the depth of
the calls. A text holds exactly one value, with blanks around it and nothing
else.

In a written string quotes and backslashes are escaped, the five control
characters with a short escape take it, and every other control character is
written by its code point.
-/
namespace TagTree.Json

/-- A piece of a string: a character, or the code unit of a `\u` escape. -/
inductive Piece where
  | char (c : Char)
  | unit (n : Nat)
deriving DecidableEq, Repr, Inhabited

inductive Value where
  | null
  | bool (b : Bool)
  | number (spelling : List Char)
  | string (pieces : List Piece)
  | array (items : List Value)
  | object (fields : List (List Piece × Value))
deriving Repr, Inhabited

def isLead (n : Nat) : Bool := 0xD800 ≤ n && n ≤ 0xDBFF

def isTrail (n : Nat) : Bool := 0xDC00 ≤ n && n ≤ 0xDFFF

/-- The characters of a string, unless a surrogate stands alone. -/
def textOf : List Piece → Option (List Char)
  | [] => some []
  | .char c :: rest => (textOf rest).map (c :: ·)
  | .unit n :: rest =>
    if isTrail n then none
    else if isLead n then
      match rest with
      | .unit m :: rest =>
        if isTrail m then
          (textOf rest).map (Char.ofNat (0x10000 + (n - 0xD800) * 1024 + (m - 0xDC00)) :: ·)
        else none
      | _ => none
    else (textOf rest).map (Char.ofNat n :: ·)

def text? (pieces : List Piece) : Option String := (textOf pieces).map String.ofList

/-- JSON knows four blanks. -/
def isSpace (c : Char) : Bool := c = ' ' || c = '\n' || c = '\t' || c = '\r'

def skipSpace (cs : List Char) : List Char := cs.dropWhile isSpace

def unitOf? (a b c d : Char) : Option Nat := do
  let a ← Hex.value? a
  let b ← Hex.value? b
  let c ← Hex.value? c
  let d ← Hex.value? d
  some (((a * 16 + b) * 16 + c) * 16 + d)

/-- The character of a short escape. -/
def shortEscape? (c : Char) : Option Char :=
  match c with
  | '"' => some '"'
  | '\\' => some '\\'
  | '/' => some '/'
  | 'b' => some '\x08'
  | 'f' => some '\x0c'
  | 'n' => some '\n'
  | 'r' => some '\r'
  | 't' => some '\t'
  | _ => none

/-- The rest of a string after its opening quote. -/
def stringBody : List Char → Option (List Piece × List Char)
  | [] => none
  | '"' :: rest => some ([], rest)
  | '\\' :: 'u' :: a :: b :: c :: d :: rest => do
    let n ← unitOf? a b c d
    let (pieces, rest) ← stringBody rest
    some (.unit n :: pieces, rest)
  | '\\' :: c :: rest => do
    let e ← shortEscape? c
    let (pieces, rest) ← stringBody rest
    some (.char e :: pieces, rest)
  | c :: rest =>
    if c.toNat < 32 || c = '\\' then none
    else do
      let (pieces, rest) ← stringBody rest
      some (.char c :: pieces, rest)

def digits? (cs : List Char) : Option (List Char × List Char) :=
  match cs.takeWhile Char.isDigit with
  | [] => none
  | ds => some (ds, cs.dropWhile Char.isDigit)

/-- The digits before the point: a leading zero stands alone. -/
def wholePart (cs : List Char) : Option (List Char × List Char) :=
  match digits? cs with
  | some ('0' :: _ :: _, _) => none
  | other => other

/-- A point and digits, or nothing. -/
def fraction (cs : List Char) : Option (List Char × List Char) :=
  match cs with
  | '.' :: rest => (digits? rest).map fun r => ('.' :: r.1, r.2)
  | _ => some ([], cs)

/-- A mark, a sign and digits, or nothing. -/
def exponent (cs : List Char) : Option (List Char × List Char) :=
  match cs with
  | e :: rest =>
    if e = 'e' ∨ e = 'E' then
      let (sign, rest) := match rest with
        | '+' :: rest => (['+'], rest)
        | '-' :: rest => (['-'], rest)
        | rest => ([], rest)
      (digits? rest).map fun r => (e :: sign ++ r.1, r.2)
    else some ([], cs)
  | [] => some ([], cs)

def unsignedNumber (cs : List Char) : Option (List Char × List Char) := do
  let (whole, rest) ← wholePart cs
  let (frac, rest) ← fraction rest
  let (exp, rest) ← exponent rest
  some (whole ++ frac ++ exp, rest)

/-- What is left of `cs` after a word. -/
def word? : List Char → List Char → Option (List Char)
  | [], cs => some cs
  | _ :: _, [] => none
  | w :: ws, c :: cs => if w = c then word? ws cs else none

mutual

/-- Read a value. Each value and each separator takes a character, so the length of the text bounds
the number of calls. -/
def value : Nat → List Char → Option (Value × List Char)
  | 0, _ => none
  | bound + 1, cs =>
    match skipSpace cs with
    | 'n' :: rest => (word? ['u', 'l', 'l'] rest).map (.null, ·)
    | 't' :: rest => (word? ['r', 'u', 'e'] rest).map (.bool true, ·)
    | 'f' :: rest => (word? ['a', 'l', 's', 'e'] rest).map (.bool false, ·)
    | '"' :: rest => (stringBody rest).map fun r => (.string r.1, r.2)
    | '-' :: rest => (unsignedNumber rest).map fun r => (.number ('-' :: r.1), r.2)
    | '[' :: rest =>
      match skipSpace rest with
      | ']' :: rest => some (.array [], rest)
      | rest => (items bound rest).map fun r => (.array r.1, r.2)
    | '{' :: rest =>
      match skipSpace rest with
      | '}' :: rest => some (.object [], rest)
      | rest => (fields bound rest).map fun r => (.object r.1, r.2)
    | rest => (unsignedNumber rest).map fun r => (.number r.1, r.2)

/-- Read the items of an array, at least one, and the closing bracket. -/
def items : Nat → List Char → Option (List Value × List Char)
  | 0, _ => none
  | bound + 1, cs => do
    let (v, rest) ← value bound cs
    match skipSpace rest with
    | ',' :: rest => do
      let (later, rest) ← items bound rest
      some (v :: later, rest)
    | ']' :: rest => some ([v], rest)
    | _ => none

/-- Read the fields of an object, at least one, and the closing brace. -/
def fields : Nat → List Char → Option (List (List Piece × Value) × List Char)
  | 0, _ => none
  | bound + 1, cs =>
    match skipSpace cs with
    | '"' :: rest => do
      let (key, rest) ← stringBody rest
      match skipSpace rest with
      | ':' :: rest => do
        let (v, rest) ← value bound rest
        match skipSpace rest with
        | ',' :: rest => do
          let (later, rest) ← fields bound rest
          some ((key, v) :: later, rest)
        | '}' :: rest => some ([(key, v)], rest)
        | _ => none
      | _ => none
    | _ => none

end

/-- The value of a whole text. -/
def parse (text : String) : Option Value :=
  let cs := text.toList
  match value (2 * cs.length + 1) cs with
  | some (v, rest) => if (skipSpace rest).isEmpty then some v else none
  | none => none

/-- The written form of one character inside a string. -/
def escape (c : Char) : List Char :=
  match c with
  | '"' => ['\\', '"']
  | '\\' => ['\\', '\\']
  | '\n' => ['\\', 'n']
  | '\r' => ['\\', 'r']
  | '\t' => ['\\', 't']
  | '\x08' => ['\\', 'b']
  | '\x0c' => ['\\', 'f']
  | c =>
    if c.toNat < 32 then
      ['\\', 'u', '0', '0', Hex.digit (c.toNat / 16), Hex.digit (c.toNat % 16)]
    else [c]

def quote (s : String) : String :=
  "\"" ++ String.ofList (s.toList.flatMap escape) ++ "\""

def quoteList (items : List String) : String :=
  "[" ++ String.intercalate "," (items.map quote) ++ "]"

end TagTree.Json
