import TagTree.Name

/-!
# Tags

A tag is a full name, and the empty name is the invalid tag. Because the
ancestors of a tag are read off its name, two tags with one name are the same
tag, whichever registry made them. Matching goes upward only: a tag matches
itself and its ancestors, and the invalid tag matches nothing.

Everything a tag answers follows from its name. `parents` are the ancestors from
the nearest to the root, `lineage` puts the tag itself in front of them, and the
depth is the number of segments. Two tags share as many levels as their lineages
have in common, counted from the root.

The invalid tag is what a lookup answers that finds nothing. It has no ancestors
and depth zero, it equals itself as a value, but it is not exactly any tag, so a
container or a query never finds it. Tags are ordered by their names, code point
by code point, which for text is the order of the encoded bytes.
-/
namespace TagTree

structure Tag where
  name : String
deriving DecidableEq, Repr

namespace Tag

def invalid : Tag := ⟨""⟩

instance : Inhabited Tag := ⟨invalid⟩

def isValid (t : Tag) : Bool := t.name != ""

/-- Ancestors, nearest first. -/
def parents (t : Tag) : List Tag := (Name.ancestors t.name).map Tag.mk

/-- The tag and its ancestors, nearest first; nothing for the invalid tag. -/
def lineage (t : Tag) : List Tag :=
  if t.isValid then t :: t.parents else []

/-- The nearest ancestor, or the invalid tag. -/
def directParent (t : Tag) : Tag := t.parents.headD invalid

def depth (t : Tag) : Nat := t.lineage.length

def simpleName (t : Tag) : String := Name.simple t.name

/-- `a.isUnder b` says that `b` is `a` or an ancestor of `a`; nothing is under
the invalid tag, and it is under nothing. -/
def isUnder (a b : Tag) : Bool :=
  a.isValid && b.isValid && (a == b || a.parents.contains b)

/-- The same valid tag. -/
def isExactly (a b : Tag) : Bool := a.isValid && a == b

def sharedDepth (a b : Tag) : Nat :=
  if a.isValid && b.isValid then
    (a.lineage.filter fun t => b == t || b.parents.contains t).length
  else 0

/-- Order by name, code point by code point. -/
def compare (a b : Tag) : Ordering := Ord.compare a.name b.name

def display (t : Tag) : String := if t.isValid then t.name else Name.none

def debug (t : Tag) : String := "Tag(" ++ t.display ++ ")"

end Tag
end TagTree
