import TagTree.Registry.Redirects

/-!
# The text form of tags and containers

A tag is written `(TagName="A.B")` and a container `(Tags=("A","B"))`. Reading
is lenient: blanks may stand between tokens, an item of a container may be
quoted, bare or in the form of a single tag, and a comma may follow the last
item. The reader yields names; resolving them is a separate step, so what is
accepted does not depend on the registry.

The reader goes through the text from the left with one position and no
backtracking, but for a word that is looked for and not found. Blanks are
skipped in front of every token. A quoted string ends at the first quote that no
backslash stands before, and a bare name ends at a blank, a quote, a comma or a
parenthesis. Errors name what was expected and the offset in bytes where it
should have stood.

A container is read to the list of its names first. These are looked up
afterwards, in their order; a name that does not resolve is dropped, with a
report if the settings ask for one, and a name that resolves twice is explicit
once. A single tag has to resolve, unless the name is empty or the word for no
tag.
-/
namespace TagTree

def Tag.toText (t : Tag) : String := "(TagName=\"" ++ t.display ++ "\")"

def Container.toText (c : Container) : String :=
  "(Tags=(" ++ String.intercalate "," (c.tags.map fun t => "\"" ++ t.name ++ "\"") ++ "))"

namespace TextForm

/-- A position in a text: how many bytes were read and what is left. -/
structure Scan where
  offset : Nat
  rest : List Char
deriving DecidableEq, Repr, Inhabited

def start (text : String) : Scan := ⟨0, text.toList⟩

def skipBlanks (offset : Nat) : List Char → Scan
  | [] => ⟨offset, []⟩
  | c :: cs => if isBlank c then skipBlanks (offset + c.utf8Size) cs else ⟨offset, c :: cs⟩

def Scan.trim (s : Scan) : Scan := skipBlanks s.offset s.rest

/-- Read the character `c` after blanks. -/
def eat? (c : Char) (s : Scan) : Option Scan :=
  match s.trim with
  | ⟨offset, d :: rest⟩ => if d = c then some ⟨offset + c.utf8Size, rest⟩ else none
  | ⟨_, []⟩ => none

def expect (c : Char) (s : Scan) : Except TextError Scan :=
  match eat? c s with
  | some s => .ok s
  | none => .error (.expected ("'" ++ c.toString ++ "'") s.trim.offset)

/-- What is left of `cs` after the word `key`. -/
def dropWord? : List Char → List Char → Option (List Char)
  | [], cs => some cs
  | _ :: _, [] => none
  | k :: key, c :: cs => if k = c then dropWord? key cs else none

/-- Read the word `key` after blanks. -/
def expectKey (key : String) (s : Scan) : Except TextError Scan :=
  match dropWord? key.toList s.trim.rest with
  | some rest => .ok ⟨s.trim.offset + key.utf8ByteSize, rest⟩
  | none => .error (.expected key s.trim.offset)

def tagsKey : String := "Tags"

def tagNameKey : String := "TagName"

/-- Read the end of the text after blanks. -/
def expectEnd (s : Scan) : Except TextError Unit :=
  if s.trim.rest.isEmpty then .ok () else .error (.trailingInput s.trim.offset)

/-- The characters up to a quote that no backslash stands before, unescaped, and what follows it. -/
def quotedBody (offset : Nat) : List Char → Option (List Char × Scan)
  | [] => none
  | c :: cs =>
    if c = '"' then some ([], ⟨offset + c.utf8Size, cs⟩)
    else if c = '\\' then
      match cs with
      | [] => none
      | d :: cs =>
        (quotedBody (offset + c.utf8Size + d.utf8Size) cs).map fun r => (d :: r.1, r.2)
    else (quotedBody (offset + c.utf8Size) cs).map fun r => (c :: r.1, r.2)

/-- A character that ends a bare name. -/
def endsBare (c : Char) : Bool :=
  isBlank c || c = ',' || c = '(' || c = ')' || c = '"' || c = '='

/-- Read the characters up to one that ends a bare name. -/
def bareBody (offset : Nat) : List Char → List Char × Scan
  | [] => ([], ⟨offset, []⟩)
  | c :: cs =>
    if endsBare c then ([], ⟨offset, c :: cs⟩)
    else
      let (name, s) := bareBody (offset + c.utf8Size) cs
      (c :: name, s)

def name (s : Scan) : Except TextError (String × Scan) :=
  match s.trim with
  | ⟨offset, '"' :: rest⟩ =>
    match quotedBody (offset + 1) rest with
    | some (cs, s) => .ok (String.ofList cs, s)
    | none => .error (.unterminatedString offset)
  | ⟨offset, rest⟩ =>
    match bareBody offset rest with
    | ([], s) => .error (.expected "a tag name" s.offset)
    | (cs, s) => .ok (String.ofList cs, s)

/-- Read a name in any form: quoted, bare or as a single tag. -/
def item (s : Scan) : Except TextError (String × Scan) :=
  match eat? '(' s with
  | some s => do
    let s ← expectKey tagNameKey s
    let s ← expect '=' s
    let (n, s) ← name s
    let s ← expect ')' s
    .ok (n, s)
  | none => name s

/-- Read items up to a closing parenthesis. Every item takes at least one character, so the length of
what is left bounds their number. -/
def items : Nat → Scan → Except TextError (List String × Scan)
  | 0, s => .error (.expected "')'" s.trim.offset)
  | bound + 1, s =>
    match eat? ')' s with
    | some s => .ok ([], s)
    | none => do
      let (n, s) ← item s
      match eat? ',' s with
      | some s => do
        let (later, s) ← items bound s
        .ok (n :: later, s)
      | none => do
        let s ← expect ')' s
        .ok ([n], s)

def containerNames (text : String) : Except TextError (List String) := do
  let s ← expect '(' (start text)
  let s ← expectKey tagsKey s
  let s ← expect '=' s
  let s ← expect '(' s
  let (names, s) ← items (s.rest.length + 1) s
  let s ← expect ')' s
  expectEnd s
  .ok names

/-- The name in the text of a tag; blank text has none. -/
def tagName (text : String) : Except TextError (Option String) :=
  if (start text).trim.rest.isEmpty then .ok none
  else do
    let (n, s) ← item (start text)
    expectEnd s
    .ok (some n)

end TextForm

namespace Registry

/-- The container of the names that resolve. A name that does not is dropped, with a report if the
settings ask for it. -/
def containerOfNames (r : Registry) : List String → Logged Container :=
  go ∅
where
  go (c : Container) : List String → Logged Container
    | [] => pure c
    | name :: rest =>
      if name = "" ∨ name = Name.none then go c rest
      else do
        let tag ← r.lookup name
        Logged.emitIf (!tag.isValid && r.settings.warnOnInvalid) (.unknownTagIgnored name)
        go (c.add tag) rest

/-- Read a container. Only the syntax can be wrong. -/
def containerOfText (r : Registry) (text : String) : Logged (Except TextError Container) :=
  match TextForm.containerNames text with
  | .error e => pure (.error e)
  | .ok names => do pure (.ok (← r.containerOfNames names))

/-- Read a tag; its name has to resolve unless it stands for no tag. -/
def tagOfText (r : Registry) (text : String) : Logged (Except TextError Tag) :=
  match TextForm.tagName text with
  | .error e => pure (.error e)
  | .ok none => pure (.ok .invalid)
  | .ok (some name) =>
    if name = "" ∨ name = Name.none then pure (.ok .invalid)
    else do
      let tag ← r.lookup name
      pure (if tag.isValid then .ok tag else .error (.unknownTag name))

end Registry
end TagTree
