import TagTree.Container
import TagTree.Event

/-!
# Query expressions

A query asks about the tags of a container. A tag node asks whether any, all or
none of its tags are there, hierarchically; an expression node asks the same of
the answers of its children. `holds` is the meaning of an expression, by
recursion on the tree. Nodes are built step by step, and a part of the wrong
sort for a node is left out and reported.

The three quantifiers are the same for both kinds of nodes, so `test` says once
what they mean for a list of answers: any of them is yes, all are, or none is.
Over no elements the first fails and the other two hold.

Building never fails. A tag added to an expression node, or an expression added
to a tag node, is left out with a report, and an invalid tag is left out as
well. Each node type has a byte, a name and the kind of elements it takes; bytes
outside the six types are no node. The description writes the name of the type
and then the elements in parentheses.
-/
namespace TagTree

inductive Quantifier where
  | any
  | all
  | none
deriving DecidableEq, Repr, Inhabited

namespace Quantifier

/-- Whether enough of `xs` satisfy `p`. -/
def test {α : Type} (q : Quantifier) (p : α → Bool) (xs : List α) : Bool :=
  match q with
  | .any => xs.any p
  | .all => xs.all p
  | .none => !xs.any p

def word : Quantifier → String
  | .any => "ANY"
  | .all => "ALL"
  | .none => "NONE"

end Quantifier

inductive QueryExpr where
  | tags (q : Quantifier) (tags : List Tag)
  | exprs (q : Quantifier) (subs : List QueryExpr)
deriving Repr, Inhabited

namespace QueryExpr

mutual

/-- The meaning of an expression. -/
def holds (c : Container) : QueryExpr → Bool
  | tags q ts => q.test c.has ts
  | exprs q subs => q.test id (holdEach c subs)

/-- The meaning of each of the expressions. -/
def holdEach (c : Container) : List QueryExpr → List Bool
  | [] => []
  | e :: rest => holds c e :: holdEach c rest

end

def addTag (e : QueryExpr) (t : Tag) : Logged QueryExpr :=
  match e with
  | tags q ts => pure (tags q (ts ++ [t]))
  | exprs .. => do
    Logged.emit (.tagOnExprNode t)
    pure e

def addTags (e : QueryExpr) (c : Container) : Logged QueryExpr :=
  match e with
  | tags q ts => pure (tags q (ts ++ c.tags))
  | exprs .. => do
    Logged.emit .tagsOnExprNode
    pure e

def addExpr (e sub : QueryExpr) : Logged QueryExpr :=
  match e with
  | exprs q subs => pure (exprs q (subs ++ [sub]))
  | tags .. => do
    Logged.emit .exprOnTagNode
    pure e

end QueryExpr

inductive NodeType where
  | undefined
  | tags (q : Quantifier)
  | exprs (q : Quantifier)
deriving DecidableEq, Repr, Inhabited

namespace NodeType

def code : NodeType → UInt8
  | undefined => 0
  | tags .any => 1
  | tags .all => 2
  | tags .none => 3
  | exprs .any => 4
  | exprs .all => 5
  | exprs .none => 6

def all : List NodeType :=
  [undefined, tags .any, tags .all, tags .none, exprs .any, exprs .all, exprs .none]

def ofCode? (b : UInt8) : Option NodeType := all.find? (·.code == b)

def name : NodeType → String
  | undefined => "Undefined"
  | tags .any => "AnyTagsMatch"
  | tags .all => "AllTagsMatch"
  | tags .none => "NoTagsMatch"
  | exprs .any => "AnyExprMatch"
  | exprs .all => "AllExprMatch"
  | exprs .none => "NoExprMatch"

def usesTags : NodeType → Bool
  | tags _ => true
  | _ => false

def usesExprs : NodeType → Bool
  | exprs _ => true
  | _ => false

end NodeType

namespace QueryExpr

def nodeType : QueryExpr → NodeType
  | tags q _ => .tags q
  | exprs q _ => .exprs q

mutual

def display : QueryExpr → String
  | tags q ts => q.word ++ "(" ++ String.intercalate ", " (ts.map Tag.display) ++ ")"
  | exprs q subs => q.word ++ "(" ++ String.intercalate ", " (displayEach subs) ++ ")"

def displayEach : List QueryExpr → List String
  | [] => []
  | e :: rest => display e :: displayEach rest

end

end QueryExpr
end TagTree
