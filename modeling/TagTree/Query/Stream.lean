import TagTree.Query.Expr

/-!
# Compiled expressions

An expression is compiled to bytes: a version, a flag that says there is a root,
and for each node its type, the number of its elements and the elements, which
are positions in a dictionary of tags or the bytes of the children. Bytes may
come from elsewhere and be malformed, so reading them stops at the first fault
and tells where. The evaluator walks the bytes and decides a node as early as it
can, but reads every node to its end; the decoder makes the expression back.

The evaluator and the decoder read the same fields in the same order and stop at
the same faults. They are kept apart since the evaluator may not look at more of
the container than it needs: once an answer settles a node, its remaining
elements are read and not asked. That the evaluator answers what the decoded
expression means is proved of any bytes.

Depth is bounded in reading and in compiling, and both take the bound as a
number of levels that is counted down, so the recursion is structural. Compiling
collects the dictionary on the way, in the order of first mention, and gives up
when it has more tags, or a node more elements, than a byte can count.
-/
namespace TagTree

inductive StreamFault where
  | unexpectedEnd
  | unknownVersion
  | undefinedType
  | tagOutOfRange
  | tooDeep
  | trailingBytes
deriving DecidableEq, Repr, Inhabited

def StreamFault.message : StreamFault → String
  | .unexpectedEnd => "unexpected end of stream"
  | .unknownVersion => "unsupported stream version"
  | .undefinedType => "undefined expression type"
  | .tagOutOfRange => "tag index out of dictionary range"
  | .tooDeep => "expression nesting too deep"
  | .trailingBytes => "trailing bytes after root expression"

namespace QueryStream

def version : UInt8 := 0

/-- How deep expressions nest. -/
def maxDepth : Nat := 64

structure Cursor where
  position : Nat
  rest : List UInt8
deriving DecidableEq, Repr, Inhabited

/-- A fault and the position of the cursor when it was found. -/
structure Fault where
  cause : StreamFault
  position : Nat
deriving DecidableEq, Repr, Inhabited

abbrev Outcome (α : Type) := Except Fault α

def start (stream : List UInt8) : Cursor := ⟨0, stream⟩

def fail {α : Type} (cause : StreamFault) (s : Cursor) : Outcome α := .error ⟨cause, s.position⟩

def next (s : Cursor) : Outcome (UInt8 × Cursor) :=
  match s.rest with
  | [] => fail .unexpectedEnd s
  | b :: rest => .ok (b, ⟨s.position + 1, rest⟩)

/-- Read the version and the root flag; tells whether there is a root. -/
def readHeader (s : Cursor) : Outcome (Bool × Cursor) := do
  let (v, s) ← next s
  if v != version then fail .unknownVersion s
  else do
    let (root, s) ← next s
    .ok (root != 0, s)

/-- Read the type of a node: whether its elements are expressions, and its quantifier. -/
def readType (s : Cursor) : Outcome ((Bool × Quantifier) × Cursor) := do
  let (b, s) ← next s
  match NodeType.ofCode? b with
  | some (.tags q) => .ok ((false, q), s)
  | some (.exprs q) => .ok ((true, q), s)
  | _ => fail .undefinedType s

def readTag (dict : List Tag) (s : Cursor) : Outcome (Tag × Cursor) := do
  let (b, s) ← next s
  match dict[b.toNat]? with
  | some t => .ok (t, s)
  | none => fail .tagOutOfRange s

/-- The root expression ends where the stream ends. -/
def finish {α : Type} (a : α) (s : Cursor) : Outcome α :=
  if s.rest.isEmpty then .ok a else fail .trailingBytes s

/-- The answer of a node, if one more answer of an element settles it. -/
def settled? (q : Quantifier) (found : Bool) : Option Bool :=
  match q with
  | .any => if found then some true else none
  | .all => if found then none else some false
  | .none => if found then some false else none

/-- The answer of a node none of whose elements settles it. -/
def unsettled (q : Quantifier) : Bool := q != .any

/-- Read the elements of a node. Once `skip` is set the remaining ones are read but not asked. -/
def evalElements (element : Bool → Cursor → Outcome (Bool × Cursor)) (q : Quantifier) :
    Nat → Bool → Bool → Cursor → Outcome (Bool × Cursor)
  | 0, _, answer, s => .ok (answer, s)
  | n + 1, skip, answer, s => do
    let (found, s) ← element skip s
    if skip then evalElements element q n true answer s
    else match settled? q found with
      | some answer => evalElements element q n true answer s
      | none => evalElements element q n false answer s

def evalTag (dict : List Tag) (c : Container) (skip : Bool) (s : Cursor) :
    Outcome (Bool × Cursor) := do
  let (t, s) ← readTag dict s
  .ok (!skip && c.has t, s)

/-- Evaluate the node at the cursor, with at most `levels` nodes inside each other. -/
def evalExpr (dict : List Tag) (c : Container) : Nat → Bool → Cursor → Outcome (Bool × Cursor)
  | 0, _, s => fail .tooDeep s
  | levels + 1, skip, s => do
    let ((onExprs, q), s) ← readType s
    let (count, s) ← next s
    if onExprs then
      evalElements (evalExpr dict c levels) q count.toNat skip (unsettled q) s
    else evalElements (evalTag dict c) q count.toNat skip (unsettled q) s

/-- Evaluate a compiled expression; one without a root does not hold. -/
def evaluate (dict : List Tag) (stream : List UInt8) (c : Container) : Outcome Bool := do
  let (root, s) ← readHeader (start stream)
  if root then do
    let (answer, s) ← evalExpr dict c maxDepth false s
    finish answer s
  else .ok false

def readEach {α : Type} (one : Cursor → Outcome (α × Cursor)) :
    Nat → Cursor → Outcome (List α × Cursor)
  | 0, s => .ok ([], s)
  | n + 1, s => do
    let (a, s) ← one s
    let (later, s) ← readEach one n s
    .ok (a :: later, s)

/-- Decode the node at the cursor, with at most `levels` nodes inside each other. -/
def decodeExpr (dict : List Tag) : Nat → Cursor → Outcome (QueryExpr × Cursor)
  | 0, s => fail .tooDeep s
  | levels + 1, s => do
    let ((onExprs, q), s) ← readType s
    let (count, s) ← next s
    if onExprs then do
      let (subs, s) ← readEach (decodeExpr dict levels) count.toNat s
      .ok (.exprs q subs, s)
    else do
      let (tags, s) ← readEach (readTag dict) count.toNat s
      .ok (.tags q tags, s)

def decode (dict : List Tag) (stream : List UInt8) : Outcome (Option QueryExpr) := do
  let (root, s) ← readHeader (start stream)
  if root then do
    let (e, s) ← decodeExpr dict maxDepth s
    finish (some e) s
  else .ok none

/-- The most distinct tags of a query and the most elements of a node. -/
def maxCount : Nat := 255

/-- The position of a tag in the dictionary, which grows if the tag is new. -/
def place (dict : List Tag) (t : Tag) : Except QueryError (UInt8 × List Tag) :=
  match dict.idxOf? t with
  | some i => .ok (UInt8.ofNat i, dict)
  | none =>
    if maxCount ≤ dict.length then .error (.tooManyTags (dict.length + 1))
    else .ok (UInt8.ofNat dict.length, dict ++ [t])

def placeEach (dict : List Tag) : List Tag → Except QueryError (List UInt8 × List Tag)
  | [] => .ok ([], dict)
  | t :: rest => do
    let (b, dict) ← place dict t
    let (bytes, dict) ← placeEach dict rest
    .ok (b :: bytes, dict)

/-- The type and the element count of a node. -/
def nodeHead (type : NodeType) (count : Nat) : Except QueryError (List UInt8) :=
  if maxCount < count then .error (.tooManyElements count)
  else .ok [type.code, UInt8.ofNat count]

mutual

/-- The bytes of a node at `depth`, and the dictionary after it. -/
def compileExpr (depth : Nat) (dict : List Tag) :
    QueryExpr → Except QueryError (List UInt8 × List Tag)
  | .tags q ts =>
    if maxDepth < depth then .error (.tooDeep depth)
    else do
      let head ← nodeHead (.tags q) ts.length
      let (bytes, dict) ← placeEach dict ts
      .ok (head ++ bytes, dict)
  | .exprs q subs =>
    if maxDepth < depth then .error (.tooDeep depth)
    else do
      let head ← nodeHead (.exprs q) subs.length
      let (bytes, dict) ← compileEach (depth + 1) dict subs
      .ok (head ++ bytes, dict)

/-- The bytes of nodes at `depth`, one after the other. -/
def compileEach (depth : Nat) (dict : List Tag) :
    List QueryExpr → Except QueryError (List UInt8 × List Tag)
  | [] => .ok ([], dict)
  | e :: rest => do
    let (bytes, dict) ← compileExpr depth dict e
    let (later, dict) ← compileEach depth dict rest
    .ok (bytes ++ later, dict)

end

/-- The stream of an expression and its dictionary. -/
def compile (e : QueryExpr) : Except QueryError (List UInt8 × List Tag) := do
  let (bytes, dict) ← compileExpr 1 [] e
  .ok (version :: 1 :: bytes, dict)

end QueryStream
end TagTree
