import TagTree.Text.Characters
import TagTree.Text.Identifier

/-!
# Literals in a declaration block

Recognisers for the literals of the language that a block is written in. Each
takes the characters from where the literal starts and gives what is left after
it, or nothing. Only string literals have a value that a block uses; the other
kinds are recognised so that they end where they should.

Identifiers, strings with and without escapes, characters, bytes and numbers are
told apart by their first characters. A literal may end with an identifier that
directly follows it, which is taken along. Numbers are the hardest part, because
a point may belong to the number or to what follows, and because an exponent
without digits ends the number before its mark.

The value of a string is read from its spelling in a second pass. In a string
with escapes a line break becomes a line feed, and a backslash at the end of a
line drops the blanks behind it; a string without escapes is what stands between
its outermost quotes.
-/
namespace TagTree.Block

def wordAt? : List Char → Option (List Char × List Char)
  | [] => none
  | c :: rest =>
    if isIdentifierStart c then
      some (c :: rest.takeWhile isIdentifierContinue, rest.dropWhile isIdentifierContinue)
    else none

def skipSuffix (cs : List Char) : List Char :=
  match wordAt? cs with
  | some (_, rest) => rest
  | none => cs

/-- What quotes may hold: text, bytes, or text that no zero may interrupt. -/
inductive Content where
  | text | bytes | nonzero
deriving DecidableEq, Repr

/-- Whether a character may stand for itself. -/
def Content.holds (k : Content) (c : Char) : Bool :=
  match k with
  | .text => true
  | .bytes => c.toNat < 0x80
  | .nonzero => c ≠ '\x00'

/-- A code point in braces: up to six hexadecimal digits, with underscores after the first. -/
def codePoint? (digits : List Char) : List Char → Option (Char × List Char)
  | [] => none
  | c :: rest =>
    if Hex.isDigit c then if digits.length < 6 then codePoint? (digits ++ [c]) rest else none
    else if c = '_' ∧ digits ≠ [] then codePoint? digits rest
    else if c = '\x7d' ∧ digits ≠ [] then do some (← Hex.scalar? (Hex.number digits), rest)
    else none

/-- What is left after an escape, which starts after its backslash. A byte may have any two digits, a
character of a text only those below 0x80. -/
def escapeEnd? (k : Content) : List Char → Option (List Char)
  | 'x' :: a :: b :: rest =>
    if Hex.isDigit a ∧ Hex.isDigit b ∧ (k = .text → a ≤ '7') ∧ (k = .nonzero → (a, b) ≠ ('0', '0'))
    then some rest else none
  | 'u' :: '\x7b' :: rest => do
    let (c, rest) ← codePoint? [] rest
    if k ≠ .bytes ∧ k.holds c then some rest else none
  | '0' :: rest => if k = .nonzero then none else some rest
  | c :: rest => if "nrt\\'\"".toList.contains c then some rest else none
  | [] => none

/-- What is left after the blanks that follow a backslash at the end of a line; some text must. -/
def continued? : List Char → Option (List Char)
  | [] => none
  | '\r' :: '\n' :: rest => continued? rest
  | c :: rest =>
    if c = '\r' then none
    else if c = ' ' || c = '\t' || c = '\n' then continued? rest
    else some (c :: rest)

/-- What is left after a string with escapes, which starts after its opening quote. -/
def stringEnd? (k : Content) : Nat → List Char → Option (List Char)
  | 0, _ => none
  | bound + 1, cs =>
    match cs with
    | [] => none
    | '"' :: rest => some rest
    | '\r' :: '\n' :: rest => stringEnd? k bound rest
    | '\\' :: '\n' :: rest => do stringEnd? k bound (← continued? rest)
    | '\\' :: '\r' :: '\n' :: rest => do stringEnd? k bound (← continued? rest)
    | '\\' :: rest => do stringEnd? k bound (← escapeEnd? k rest)
    | c :: rest => if c ≠ '\r' ∧ k.holds c then stringEnd? k bound rest else none

/-- What is left after a string without escapes, which ends with a quote and `marks` number signs. -/
def rawEnd? (k : Content) (marks : Nat) : List Char → Option (List Char)
  | [] => none
  | '\r' :: '\n' :: rest => rawEnd? k marks rest
  | c :: rest =>
    if c = '"' ∧ rest.take marks = List.replicate marks '#' then some (rest.drop marks)
    else if c ≠ '\r' ∧ k.holds c then rawEnd? k marks rest
    else none

/-- A string without escapes, after the letter that announces it. At most 255 number signs may
surround it. -/
def rawString? (k : Content) (cs : List Char) : Option (List Char) :=
  let marks := (cs.takeWhile (· = '#')).length
  match cs.drop marks with
  | '"' :: rest => if marks ≤ 255 then rawEnd? k marks rest else none
  | _ => none

def quotedEnd? (k : Content) (cs : List Char) : Option (List Char) := do
  let rest ← match cs with
    | '\\' :: rest => escapeEnd? k rest
    | c :: rest => if k.holds c then some rest else none
    | [] => none
  match rest with
  | '\'' :: rest => some rest
  | _ => none

def quotedLiteral? (cs : List Char) : Option (List Char) :=
  let body : Option (List Char) :=
    match cs with
    | '"' :: rest => stringEnd? .text cs.length rest
    | 'r' :: rest => rawString? .text rest
    | 'b' :: '"' :: rest => stringEnd? .bytes cs.length rest
    | 'b' :: 'r' :: rest => rawString? .bytes rest
    | 'c' :: '"' :: rest => stringEnd? .nonzero cs.length rest
    | 'c' :: 'r' :: rest => rawString? .nonzero rest
    | 'b' :: '\'' :: rest => quotedEnd? .bytes rest
    | '\'' :: rest => quotedEnd? .text rest
    | _ => none
  body.map skipSuffix

/-- A number may end with an identifier and nothing else may follow it in the same word. -/
def numberEnd? (cs : List Char) : Option (List Char) :=
  match skipSuffix cs with
  | c :: rest => if isIdentifierContinue c then none else some (c :: rest)
  | [] => some []

def isGrouped (c : Char) : Bool := c.isDigit || c = '_'

/-- What is left after an exponent, which starts after its mark: a sign that underscores may precede, and
digits of which there is at least one. -/
def exponentEnd? (cs : List Char) : Option (List Char) :=
  let unsigned (cs : List Char) : Option (List Char) :=
    if (cs.takeWhile isGrouped).any Char.isDigit then some (cs.dropWhile isGrouped) else none
  match cs.dropWhile (· = '_') with
  | c :: rest => if c = '+' ∨ c = '-' then unsigned rest else unsigned (c :: rest)
  | [] => none

/-- A number with a point, an exponent or both. A point before a second point or before an identifier
belongs to what follows. If the exponent has no digits, the number ends before its mark, provided it
has a point. -/
def floatEnd? (cs : List Char) : Option (List Char) := do
  let withExponent (atMark : Option (List Char)) (cs : List Char) : Option (List Char) :=
    match cs with
    | c :: rest => if c = 'e' ∨ c = 'E' then (exponentEnd? rest).or atMark else atMark
    | [] => atMark
  let first ← cs.head?
  if first.isDigit then
    let rest ← match cs.dropWhile isGrouped with
      | '.' :: rest =>
        if rest.head?.any fun c => c = '.' || isIdentifierStart c then none
        else
          let rest := rest.dropWhile isGrouped
          withExponent (some rest) rest
      | rest => withExponent none rest
    numberEnd? rest
  else none

/-- The digits of a whole number: one of the base or more, with underscores. A decimal digit outside the
base spoils the number, and a number in base ten does not start with an underscore. -/
def digitsEnd? (base : Nat) (cs : List Char) : Option (List Char) :=
  let inBase (c : Char) : Bool := c = '_' || c.isDigit || (Hex.value? c).any (· < base)
  let digits := cs.takeWhile inBase
  if digits.any (· ≠ '_') ∧ digits.all (fun c => c = '_' || (Hex.value? c).any (· < base)) ∧
      (base = 10 → digits.head? ≠ some '_') then some (cs.dropWhile inBase)
  else none

def integerEnd? (cs : List Char) : Option (List Char) := do
  let rest ← match cs with
    | '0' :: 'x' :: rest => digitsEnd? 16 rest
    | '0' :: 'o' :: rest => digitsEnd? 8 rest
    | '0' :: 'b' :: rest => digitsEnd? 2 rest
    | _ => digitsEnd? 10 cs
  numberEnd? rest

/-- What is left after a literal of any kind. -/
def literalEnd? (cs : List Char) : Option (List Char) :=
  ((quotedLiteral? cs).or (floatEnd? cs)).or (integerEnd? cs)

/-- The text of a string with escapes, up to its closing quote. A line break is a line feed, and a
backslash at the end of a line drops every blank that follows. -/
def unescape : Nat → List Char → List Char
  | 0, _ => []
  | bound + 1, cs =>
    match cs with
    | [] => []
    | '"' :: _ => []
    | '\r' :: '\n' :: rest => '\n' :: unescape bound rest
    | '\\' :: c :: rest =>
      match c with
      | 'x' => Char.ofNat (Hex.number (rest.take 2)) :: unescape bound (rest.drop 2)
      | 'u' =>
        match codePoint? [] (rest.drop 1) with
        | some (c, rest) => c :: unescape bound rest
        | none => []
      | 'n' => '\n' :: unescape bound rest
      | 'r' => '\r' :: unescape bound rest
      | 't' => '\t' :: unescape bound rest
      | '0' => '\x00' :: unescape bound rest
      | '\r' => unescape bound (rest.dropWhile isBlank)
      | '\n' => unescape bound (rest.dropWhile isBlank)
      | c => c :: unescape bound rest
    | c :: rest => c :: unescape bound rest

/-- The text of a string without escapes, after the letter that announces it: what lies between the
first quote and the last. -/
def rawText (cs : List Char) : List Char :=
  let body := (cs.dropWhile (· ≠ '"')).drop 1
  ((body.reverse.dropWhile (· ≠ '"')).drop 1).reverse

/-- A string literal: how it is written and what it says. -/
structure StringLiteral where
  written : String
  value : String
deriving DecidableEq, Repr

/-- Read a literal as a string; the other kinds of literals are not strings. -/
def StringLiteral.of? (written : String) : Option StringLiteral :=
  match written.toList with
  | '"' :: rest => some ⟨written, String.ofList (unescape rest.length rest)⟩
  | 'r' :: rest => some ⟨written, String.ofList (rawText rest)⟩
  | _ => none

end TagTree.Block
