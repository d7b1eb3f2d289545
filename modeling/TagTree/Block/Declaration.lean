import TagTree.Block.Token
import TagTree.Settings

/-!
# Declaration blocks

A block declares a tree of tags. A declaration is a tag, unless an attribute
redirects its name to another tag; then it stands for an old name. The tags of a
block are the rows of its declarations, parents before children. What lies below
a redirected declaration declares nothing, and in a block that was read nothing
lies there.

Declarations are kept as one tree with two kinds of links, to the declarations
inside and to the rest of the level, so that every traversal is one structural
recursion. `rows` and `aliases` carry the dotted path of the level along and
split the declarations between them: a declaration with a redirect is an alias,
any other is a row.

A redirect has to lead to a declared tag other than its own old name. The check
looks at the redirects in the order of their declarations and tells the first
one that does not. `tagLevels` counts the levels on which tags stand, since each
level of modules has its depth in a byte.
-/
namespace TagTree

namespace Block

structure Deprecation where
  note : Option String := none
deriving DecidableEq, Repr

/-- What the attributes of a declaration say; of two that say the same, the later counts. `excess` records
that one of them held more tokens than it needs. -/
structure Attributes where
  comment : Option String := none
  deprecation : Option Deprecation := none
  redirect : Option StringLiteral := none
  excess : Bool := false
deriving DecidableEq, Repr

/-- Declarations on one level, each with the declarations inside it. -/
inductive Declarations where
  | nil
  | cons (name : Identifier) (attributes : Attributes) (children rest : Declarations)
deriving DecidableEq, Repr, Inhabited

namespace Declarations

def isEmpty : Declarations → Bool
  | nil => true
  | cons .. => false

/-- Whether an attribute held more tokens than it needs, in any declaration of
the tree. -/
def hasExcess : Declarations → Bool
  | nil => false
  | cons _ a children rest => a.excess || children.hasExcess || rest.hasExcess

/-- The declared tags below the name `above`, parents before children. -/
def rows (above : String) : Declarations → List Row
  | nil => []
  | cons name a children rest =>
    match a.redirect with
    | some _ => rest.rows above
    | none =>
      let path := Name.child above name.name
      ⟨path, a.comment.getD ""⟩ :: children.rows path ++ rest.rows above

/-- The old names below the name `above`, each with the literal that says where it leads. -/
def aliases (above : String) : Declarations → List (String × StringLiteral)
  | nil => []
  | cons name a children rest =>
    let path := Name.child above name.name
    match a.redirect with
    | some target => (path, target) :: rest.aliases above
    | none => children.aliases path ++ rest.aliases above

/-- The number of levels that tags stand on. A redirected declaration is no tag,
and what lies below it counts for nothing. -/
def tagLevels : Declarations → Nat
  | nil => 0
  | cons _ a children rest =>
    match a.redirect with
    | some _ => rest.tagLevels
    | none => max (children.tagLevels + 1) rest.tagLevels

end Declarations

inductive Visibility where
  | inherited
  | everywhere
  | upTo (scope : Identifier)
  | inside (absolute : Bool) (path : List Identifier)
deriving DecidableEq, Repr

end Block

/-- A block: a named root and the declarations below it. The root is no tag. -/
structure Block where
  visibility : Block.Visibility
  root : Block.Identifier
  declarations : Block.Declarations
deriving DecidableEq, Repr

namespace Block

def rows (b : Block) : List Row := b.declarations.rows ""

def aliases (b : Block) : List (String × StringLiteral) := b.declarations.aliases ""

def redirects (b : Block) : List Redirect := b.aliases.map fun r => ⟨r.1, r.2.value⟩

/-- A redirect leads to another name, which has to be the name of a declared tag. -/
def redirectFault? (tags : List Row) (d : Redirect) : Option BlockFault :=
  if d.new = d.old then some .selfRedirect
  else if tags.any (·.tag == d.new) then none
  else some (.undeclaredTarget d.new)

/-- The first redirect that leads nowhere is refused. -/
def check (b : Block) : Except BlockFault Unit :=
  match b.redirects.findSome? (redirectFault? b.rows) with
  | some fault => .error fault
  | none => .ok ()

end Block
end TagTree
