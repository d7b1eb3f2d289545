import TagTree.Block.Literal
import TagTree.Text.Characters
import TagTree.Text.Quoted

/-!
# Tokens of a declaration block

A text is cut into lexemes, and the lexemes are nested along their brackets.
Blanks and comments separate lexemes. A documentation comment is an attribute,
so it becomes the lexemes of one. `Tokens.ofText?` says nothing when some
character starts no lexeme or when brackets do not match.

Lexemes are cut off one by one from the front. Words come in two forms, plain
and raw, and five of them have no raw form. Punctuation is cut into single
characters that remember whether more follows at once. Comments nest, and a
comment that documents what follows is turned into the tokens of an attribute
with a literal.

The nesting works from the back: a lexeme is put in front of the tokens that
follow it, a closing bracket opens a new group, and the matching opening bracket
closes it. So there is one pass over the lexemes and no search for partners, and
brackets that do not match show as groups that are open at the wrong time.
-/
namespace TagTree.Block

/-- A word. A raw one is announced by a mark and may be spelt like a keyword. -/
structure Identifier where
  text : String
  raw : Bool
deriving DecidableEq, Repr

/-- How an identifier is written, also as a segment of a tag name. -/
def Identifier.name (i : Identifier) : String := if i.raw then "r#" ++ i.text else i.text

inductive Delimiter where
  | paren | bracket | brace
deriving DecidableEq, Repr

/-- A smallest piece of text. Punctuation is `joined` when more punctuation follows at once. -/
inductive Lexeme where
  | word (i : Identifier)
  | punct (c : Char) (joined : Bool)
  | literal (written : String)
  | opening (d : Delimiter)
  | closing (d : Delimiter)
deriving DecidableEq, Repr

/-- Between lexemes the two direction marks are blank, too. -/
def separates (c : Char) : Bool := isBlank c || c = '\u200e' || c = '\u200f'

def splitLine : List Char → List Char × List Char
  | [] => ([], [])
  | '\n' :: rest => ([], '\n' :: rest)
  | '\r' :: '\n' :: rest => ([], '\n' :: rest)
  | c :: rest => (c :: (splitLine rest).1, (splitLine rest).2)

/-- What is left after a comment that may hold comments, which starts after its opening; `depth` is the
number of comments that are open inside it. -/
def commentEnd? : Nat → List Char → Option (List Char)
  | depth, '/' :: '*' :: rest => commentEnd? (depth + 1) rest
  | 0, '*' :: '/' :: rest => some rest
  | depth + 1, '*' :: '/' :: rest => commentEnd? depth rest
  | depth, _ :: rest => commentEnd? depth rest
  | _, [] => none

/-- Whether a line comment documents what follows, by the text after its two slashes. -/
def documentsLine : List Char → Bool
  | '!' :: _ => true
  | '/' :: rest => rest.head? ≠ some '/'
  | _ => false

/-- Whether a comment in stars documents what follows, by the text after its opening. -/
def documentsBlock : List Char → Bool
  | '!' :: _ => true
  | '*' :: rest => rest.head? ≠ some '*' ∧ rest.head? ≠ some '/'
  | _ => false

/-- Skip blanks and the comments that document nothing. A comment without an end is left. -/
def skipBlanks : Nat → List Char → List Char
  | 0, cs => cs
  | bound + 1, cs =>
    match cs with
    | [] => []
    | '/' :: '/' :: rest =>
      if documentsLine rest then cs else skipBlanks bound (splitLine rest).2
    | '/' :: '*' :: rest =>
      if documentsBlock rest then cs
      else
        match commentEnd? 0 rest with
        | some rest => skipBlanks bound rest
        | none => cs
    | c :: rest => if separates c then skipBlanks bound rest else cs

/-- A comment that documents what follows: whether it documents what encloses it, its text, and what is
left. -/
def documentation? : List Char → Option (Bool × List Char × List Char)
  | '/' :: '/' :: mark :: rest =>
    if documentsLine (mark :: rest) then some (mark = '!', splitLine rest) else none
  | '/' :: '*' :: mark :: rest =>
    if documentsBlock (mark :: rest) then do
      let left ← commentEnd? 0 (mark :: rest)
      some (mark = '!', rest.take (rest.length - left.length - 2), left)
    else none
  | _ => none

/-- The attribute that a documentation comment stands for. -/
def documentationLexemes (inner : Bool) (text : List Char) : List Lexeme :=
  [.punct '#' false] ++ (if inner then [.punct '!' false] else []) ++
    [.opening .bracket, .word ⟨"doc", false⟩, .punct '=' false,
      .literal (quoted (String.ofList text)), .closing .bracket]

/-- Words that are not identifiers even when they are announced as raw. -/
def unraw : List String := ["_", "super", "self", "Self", "crate"]

def identifierAt? (cs : List Char) : Option (Identifier × List Char) :=
  match cs with
  | 'r' :: '#' :: rest => do
    let (word, rest) ← wordAt? rest
    let text := String.ofList word
    if unraw.contains text then none else some (⟨text, true⟩, rest)
  | _ => (wordAt? cs).map fun r => (⟨String.ofList r.1, false⟩, r.2)

/-- Beginnings of literals in quotes. A text that has one is not an identifier even when the literal is
malformed. -/
def quoteMarks : List String :=
  ["r\"", "r#\"", "r##", "b\"", "b'", "br\"", "br#", "c\"", "cr\"", "cr#"]

def isPunctuation (c : Char) : Bool := "~!@#$%^&*-=+|;:,<.>/?'".toList.contains c

def startsPunctuation : List Char → Bool
  | '/' :: '/' :: _ => false
  | '/' :: '*' :: _ => false
  | c :: _ => isPunctuation c
  | [] => false

def namesLifetime (cs : List Char) : Bool :=
  match identifierAt? cs with
  | some (i, rest) => rest.head? ≠ some '\'' ∧ (rest.head? = some '#' → i.raw)
  | none => false

def punctuationAt? (cs : List Char) : Option (Lexeme × List Char) :=
  match cs with
  | c :: rest =>
    if !startsPunctuation cs then none
    else if c = '\'' then if namesLifetime rest then some (.punct c true, rest) else none
    else some (.punct c (startsPunctuation rest), rest)
  | [] => none

def bracket? (c : Char) : Option Lexeme :=
  match c with
  | '(' => some (.opening .paren)
  | '[' => some (.opening .bracket)
  | '\x7b' => some (.opening .brace)
  | ')' => some (.closing .paren)
  | ']' => some (.closing .bracket)
  | '\x7d' => some (.closing .brace)
  | _ => none

/-- A comment in parentheses that stands for a value that could not be written. -/
def errorMark : String := "(/*ERROR*/)"

/-- The lexeme at the start of a text that starts with neither a blank nor a comment. -/
def lexemeAt? (cs : List Char) : Option (Lexeme × List Char) :=
  if errorMark.toList.isPrefixOf cs then
    some (.literal errorMark, cs.drop errorMark.length)
  else
    match cs.head?.bind bracket? with
    | some l => some (l, cs.drop 1)
    | none =>
      match literalEnd? cs with
      | some rest => some (.literal (String.ofList (cs.take (cs.length - rest.length))), rest)
      | none =>
        match punctuationAt? cs with
        | some found => some found
        | none =>
          if quoteMarks.any fun m => m.toList.isPrefixOf cs then none
          else (identifierAt? cs).map fun r => (.word r.1, r.2)

/-- Cut a text into lexemes. Each takes at least a character, so the length of the text bounds their
number. A documentation comment holds no carriage return outside a line break. -/
def lexemes? : Nat → List Char → Option (List Lexeme)
  | 0, _ => none
  | bound + 1, cs =>
    match skipBlanks bound cs with
    | [] => some []
    | cs =>
      match documentation? cs with
      | some (inner, text, rest) =>
        if cleanBreaks text then
          (lexemes? bound rest).map (documentationLexemes inner text ++ ·)
        else none
      | none => do
        let (l, rest) ← lexemeAt? cs
        (lexemes? bound rest).map (l :: ·)

/-- A sequence of tokens. A group holds the tokens between two brackets. -/
inductive Tokens where
  | nil
  | word (i : Identifier) (rest : Tokens)
  | punct (c : Char) (joined : Bool) (rest : Tokens)
  | literal (written : String) (rest : Tokens)
  | group (d : Delimiter) (inner rest : Tokens)
deriving DecidableEq, Repr, Inhabited

namespace Tokens

/-- Add the lexeme before a text, given the tokens up to the next closing bracket and, for each bracket
that is still open, what follows its group. -/
def before (l : Lexeme) (now : Tokens × List (Delimiter × Tokens)) :
    Option (Tokens × List (Delimiter × Tokens)) :=
  match l with
  | .word i => some (.word i now.1, now.2)
  | .punct c joined => some (.punct c joined now.1, now.2)
  | .literal written => some (.literal written now.1, now.2)
  | .closing d => some (.nil, (d, now.1) :: now.2)
  | .opening d =>
    match now.2 with
    | (e, rest) :: outer => if d = e then some (.group d now.1 rest, outer) else none
    | [] => none

/-- Nest lexemes along their brackets, which have to match. -/
def ofLexemes? (ls : List Lexeme) : Option Tokens :=
  match ls.foldrM before (.nil, []) with
  | some (tokens, []) => some tokens
  | _ => none

/-- The tokens of a text. A byte order mark at its start is skipped. -/
def ofText? (text : String) : Option Tokens := do
  let cs := text.toList
  let cs := if cs.head? = some '\ufeff' then cs.drop 1 else cs
  ofLexemes? (← lexemes? (cs.length + 1) cs)

end Tokens
end TagTree.Block
