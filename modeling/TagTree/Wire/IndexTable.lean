import TagTree.Event
import TagTree.Tree

/-!
# The index table

Peers that register the same tags agree on a number for each: tags are ordered
by name, the commonly replicated ones come first in the order given, and the
position is the index. One index that no tag has, the sentinel, stands for the
invalid tag and for tags without an index. The table is cut so that the sentinel
still fits the width of an index, which is at most sixteen bits.

The order is made by sorting without repetitions, with the common tags taken out
and put in front. Common tags that are not registered, and repetitions among
them, leave no trace in the order. A table of a given width holds two tags fewer
than the width has numbers, so that the sentinel, which is one more than the
number of tags, still fits.

The width is the number of binary digits of the sentinel, the least that holds
every index and the sentinel. It may be less than the width that was asked for,
and never is more. Tags that do not fit are dropped from the end of the order
and reported with their number.
-/
namespace TagTree

def bitsFor (n : Nat) : Nat := if n = 0 then 0 else n.log2 + 1

structure IndexTable where
  /-- Tags in the order of their indices. -/
  tags : List Tag
deriving DecidableEq, Repr, Inhabited

namespace IndexTable

def size (t : IndexTable) : Nat := t.tags.length

/-- The index of the invalid tag. -/
def sentinel (t : IndexTable) : Nat := t.size + 1

def width (t : IndexTable) : Nat := bitsFor t.sentinel

def tagAt? (t : IndexTable) (index : Nat) : Option Tag := t.tags[index]?

/-- Insert into an increasing list unless the tag is there. -/
def insertSorted (tag : Tag) : List Tag → List Tag
  | [] => [tag]
  | u :: rest =>
    if tag.name < u.name then tag :: u :: rest
    else if tag = u then u :: rest
    else u :: insertSorted tag rest

/-- The distinct tags of a list in increasing order of their names. -/
def sortDistinct (tags : List Tag) : List Tag := tags.foldr insertSorted []

/-- Whether a tag occurs in an increasing list, found by halving. -/
def occurs (tags : List Tag) (t : Tag) : Bool :=
  (bisect (fun k => (tags.getD k .invalid).name) t.name tags.length 0 tags.length).isOk

/-- The tags of `wanted` that occur in the increasing list `tags`, in order of first mention. -/
def front (tags wanted : List Tag) : List Tag :=
  wanted.foldl (fun acc t => if occurs tags t then addFirst acc t else acc) []
where
  addFirst (acc : List Tag) (t : Tag) : List Tag := if acc.contains t then acc else acc ++ [t]

/-- All valid tags of a list, those of `common` first. -/
def ordered (tags common : List Tag) : List Tag :=
  let sorted := sortDistinct (tags.filter Tag.isValid)
  let first := front sorted common
  first ++ sorted.filter fun t => !first.contains t

def clampWidth (maxBits : Nat) : Nat := max 1 (min maxBits 16)

/-- How many tags a table of this width holds. -/
def capacity (maxBits : Nat) : Nat := (1 <<< clampWidth maxBits) - 2

/-- The table of `tags`; tags beyond the capacity are dropped and reported. -/
def build (tags common : List Tag) (maxBits : Nat) : Logged IndexTable := do
  let all := ordered tags common
  let room := capacity maxBits
  Logged.emitIf (room < all.length) (.indexOverflow all.length room (clampWidth maxBits))
  pure ⟨all.take room⟩

end IndexTable
end TagTree
