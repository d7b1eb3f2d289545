import TagTree.Block.Declaration

/-!
# Reading declaration blocks

The grammar of a block, on its tokens. A declaration is a name with attributes
before it and either a semicolon or declarations in braces after it. Faults are
reported in the order of the text, so the name of a declaration is compared with
those before it ahead of what is inside it, and a redirect with children is
refused once the children are read. Tokens left over inside an attribute are
refused last.

Reading goes from the left over a tree of tokens, whose groups are already
matched. The attributes read so far wait for the declaration they belong to, and
the names of the level wait for the next name to be compared with them. Of two
attributes that say the same, the later counts. A documentation comment is an
attribute as well, though none that a declaration knows.

Besides names, a path may hold the words for the place itself, the one above it
and the root. Visibility may be absent, unlimited, or limited to a place; what
stands behind the place in the parentheses is kept aside and refused at the end,
as are the tokens left over in an attribute.
-/
namespace TagTree.Block

/-- Words that name nothing. -/
def keywords : List String :=
  ["_", "abstract", "as", "async", "await", "become", "box", "break", "const", "continue", "crate",
    "do", "dyn", "else", "enum", "extern", "false", "final", "fn", "for", "if", "impl", "in", "let",
    "loop", "macro", "match", "mod", "move", "mut", "override", "priv", "pub", "ref", "return",
    "Self", "self", "static", "struct", "super", "trait", "true", "try", "type", "typeof", "unsafe",
    "unsized", "use", "virtual", "where", "while", "yield"]

/-- A raw word names something even when it is spelt like a keyword. -/
def Identifier.isName (i : Identifier) : Bool := i.raw || !keywords.contains i.text

def Identifier.isWord (i : Identifier) (text : String) : Bool := !i.raw && i.text == text

/-- Note that tokens are left after what an attribute needs. -/
def Attributes.noteRest (a : Attributes) : Tokens → Attributes
  | .nil => a
  | _ => { a with excess := true }

/-- An equals sign and a string, and what is left. -/
def assigned? : Tokens → Option (StringLiteral × Tokens)
  | .punct '=' _ (.literal written rest) => (StringLiteral.of? written).map (·, rest)
  | _ => none

def assigned (ts : Tokens) : Except BlockError (StringLiteral × Tokens) :=
  match assigned? ts with
  | some found => .ok found
  | none => .error .malformed

def deprecationNote (a : Attributes) : Tokens → Except BlockError Attributes
  | .nil => .ok a
  | .word key rest =>
    if !key.isName then .error .malformed
    else if !key.isWord "note" then .error (.invalid .noteExpected)
    else do
      let (note, rest) ← assigned rest
      return { a with deprecation := some ⟨some note.value⟩ }.noteRest rest
  | _ => .error .malformed

def addAttribute (a : Attributes) : Tokens → Except BlockError Attributes
  | .word key rest =>
    if !key.isName then .error .malformed
    else if key.isWord "deprecated" then
      let a := { a with deprecation := some (a.deprecation.getD {}) }
      match rest with
      | .group .paren inner rest => (deprecationNote a inner).map (·.noteRest rest)
      | rest => .ok (a.noteRest rest)
    else if key.isWord "redirect" then do
      let (target, rest) ← assigned rest
      return { a with redirect := some target }.noteRest rest
    else if key.isWord "comment" then do
      let (comment, rest) ← assigned rest
      return { a with comment := some comment.value }.noteRest rest
    else .error (.invalid (.unknownAttribute key.name))
  | _ => .error .malformed

/-- The declarations that tokens spell. `pending` are the attributes read for the next declaration, if
there are any, and `seen` the names already declared on this level. -/
def readDeclarations (pending : Option Attributes) (seen : List Identifier) :
    Tokens → Except BlockError Declarations
  | .nil => if pending.isNone then .ok .nil else .error .malformed
  | .punct '#' _ (.group .bracket inner rest) => do
    readDeclarations (some (← addAttribute (pending.getD {}) inner)) seen rest
  | .word name after =>
    if !name.isName then .error .malformed
    else if seen.contains name then .error (.invalid (.duplicateTag name.name))
    else
      let a := pending.getD {}
      match after with
      | .group .brace inner rest => do
        let children ← readDeclarations none [] inner
        if a.redirect.isSome ∧ !children.isEmpty then
          .error (.invalid (.redirectWithChildren name.name))
        else return .cons name a children (← readDeclarations none (name :: seen) rest)
      | .punct ';' _ rest => do
        return .cons name a .nil (← readDeclarations none (name :: seen) rest)
      | _ => .error .malformed
  | _ => .error .malformed

/-- A path of names, and what is left. Besides names, four words lead to a place. -/
def pathOf? : Tokens → Option (List Identifier × Tokens)
  | .word i after =>
    if i.isName || ["super", "self", "Self", "crate"].contains i.text then
      match after with
      | .punct ':' true (.punct ':' _ rest) => (pathOf? rest).map fun r => (i :: r.1, r.2)
      | rest => some ([i], rest)
    else none
  | _ => none

/-- A path that may start at the root of everything. -/
def absolutePathOf? : Tokens → Option (Visibility × Tokens)
  | .punct ':' true (.punct ':' _ rest) => (pathOf? rest).map fun r => (.inside true r.1, r.2)
  | rest => (pathOf? rest).map fun r => (.inside false r.1, r.2)

/-- The visibility that tokens in parentheses limit, and what is left of them. -/
def scopeOf? : Tokens → Option (Visibility × Tokens)
  | .word i rest =>
    if i.isWord "in" then absolutePathOf? rest
    else if ["crate", "self", "super"].any i.isWord ∧ rest = .nil then some (.upTo i, .nil)
    else none
  | _ => none

/-- The visibility at the front of a block, what is left of its parentheses, and what follows. -/
def visibilityOf? : Tokens → Option (Visibility × Tokens × Tokens)
  | .word i after =>
    if i.isWord "pub" then
      match after with
      | .group .paren inner rest => (scopeOf? inner).map fun r => (r.1, r.2, rest)
      | rest => some (.everywhere, .nil, rest)
    else some (.inherited, .nil, .word i after)
  | rest => some (.inherited, .nil, rest)

/-- The head of a block: its visibility, what is left of the parentheses in it, its root, the tokens of
its declarations and what follows them. -/
def headOf? (ts : Tokens) : Option (Visibility × Tokens × Identifier × Tokens × Tokens) :=
  match visibilityOf? ts with
  | some (visibility, left, .word keyword (.word root (.group .brace inner rest))) =>
    if keyword.isWord "mod" ∧ root.isName then some (visibility, left, root, inner, rest) else none
  | _ => none

def ofTokens (ts : Tokens) : Except BlockError Block :=
  match headOf? ts with
  | some (visibility, left, root, inner, rest) => do
    let ds ← readDeclarations none [] inner
    if left = .nil ∧ rest = .nil ∧ !ds.hasExcess then return ⟨visibility, root, ds⟩
    else .error .malformed
  | none => .error .malformed

def ofText (text : String) : Except BlockError Block :=
  match Tokens.ofText? text with
  | some ts => ofTokens ts
  | none => .error .malformed

end TagTree.Block
