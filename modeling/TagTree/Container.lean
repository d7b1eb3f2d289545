import TagTree.Tag

/-!
# Containers

A container holds explicit tags in the order they came and a cache of the
ancestors these imply. Insertions extend the cache, removals rebuild it from the
explicit tags that are left; `rebuilt` is the wholesale definition that both
agree with. Membership by `has` looks at both lists, membership by `hasExact` at
the explicit tags only.

Membership and its variants come in pairs. A question of the first kind is
answered from the explicit tags and the cache together, so a tag below the one
asked for counts; a question of the second kind is answered from the explicit
tags alone. The questions about a second container ask for any or for all of its
explicit tags, and of the empty container all are there and none is.

Insertion, union, removal and selection say exactly which explicit tags remain
and in which order. Insertion puts a new tag behind the others, a union appends
the new tags of the other side, a removal keeps the order of what stays, and a
filter makes a new container of the explicit tags that pass. The invalid tag
does not become explicit, and no tag does so twice; `addFast` leaves these two
checks to its caller.

Equality compares the explicit tags as sets: the same number of them, and each
of one side on the other. Caches and orders play no part in it.
-/
namespace TagTree

structure Container where
  tags : List Tag
  parents : List Tag
deriving DecidableEq, Repr, Inhabited

/-- Append `t` unless it is there already. -/
def addUnique (list : List Tag) (t : Tag) : List Tag :=
  if list.contains t then list else list ++ [t]

namespace Container

def empty : Container := ⟨[], []⟩

instance : EmptyCollection Container := ⟨empty⟩

/-- The ancestors implied by `tags`, each once, in the order of first mention. -/
def impliedParents (tags : List Tag) : List Tag :=
  tags.foldl (fun acc t => t.parents.foldl addUnique acc) []

/-- The container of these explicit tags with a cache computed from scratch. -/
def rebuilt (tags : List Tag) : Container := ⟨tags, impliedParents tags⟩

def size (c : Container) : Nat := c.tags.length

def isEmpty (c : Container) : Bool := c.tags.isEmpty

def has (c : Container) (t : Tag) : Bool :=
  t.isValid && (c.tags.contains t || c.parents.contains t)

def hasExact (c : Container) (t : Tag) : Bool := t.isValid && c.tags.contains t

def hasAny (c d : Container) : Bool := d.tags.any c.has
def hasAnyExact (c d : Container) : Bool := d.tags.any c.hasExact
def hasAll (c d : Container) : Bool := d.tags.all c.has
def hasAllExact (c d : Container) : Bool := d.tags.all c.hasExact

/-- Add without looking whether the tag is valid and new. -/
def addFast (c : Container) (t : Tag) : Container :=
  ⟨c.tags ++ [t], t.parents.foldl addUnique c.parents⟩

/-- Add a tag; invalid tags and repetitions change nothing. -/
def add (c : Container) (t : Tag) : Container :=
  if !t.isValid || c.tags.contains t then c else c.addFast t

def addAll (c : Container) (tags : List Tag) : Container := tags.foldl add c

def ofList (tags : List Tag) : Container := empty.addAll tags

/-- Union of both the explicit tags and the caches. -/
def append (c d : Container) : Container :=
  ⟨d.tags.foldl addUnique c.tags, d.parents.foldl addUnique c.parents⟩

/-- Add a tag so that no explicit tag is an ancestor of another: a tag that is implied already is
refused, and explicit ancestors give way to their descendant. -/
def addLeaf (c : Container) (t : Tag) : Bool × Container :=
  if !t.isValid then (false, c)
  else if c.hasExact t then (true, c)
  else if c.has t then (false, c)
  else
    let kept := c.tags.filter fun e => !t.parents.contains e
    let c' := if kept.length = c.tags.length then c else rebuilt kept
    (true, c'.add t)

/-- Keep the explicit tags `keep` accepts; tells whether anything went. -/
def restrict (c : Container) (keep : Tag → Bool) : Bool × Container :=
  let kept := c.tags.filter keep
  if kept.length = c.tags.length then (false, c) else (true, rebuilt kept)

/-- Remove the first explicit tag that satisfies `p`. -/
def removeFirst (c : Container) (p : Tag → Bool) : Bool × Container :=
  if c.tags.any p then (true, rebuilt (c.tags.eraseP p)) else (false, c)

def remove (c : Container) (t : Tag) : Bool × Container := c.removeFirst (· == t)

def removeName (c : Container) (name : String) : Bool × Container :=
  c.removeFirst (·.name == name)

def removeAll (c d : Container) : Bool × Container := c.restrict fun t => !d.tags.contains t

def reset (c : Container) : Container := { c with tags := [], parents := [] }

end Container

def Tag.isUnderAny (t : Tag) (c : Container) : Bool := c.tags.any t.isUnder

def Tag.isListedIn (t : Tag) (c : Container) : Bool := c.tags.any t.isExactly

def Tag.alone (t : Tag) : Container := Container.ofList [t]

/-- A tag and its ancestors, all explicit. -/
def Tag.lineageContainer (t : Tag) : Container := Container.ofList t.lineage

namespace Container

def filter (c d : Container) : Container := ofList (c.tags.filter (·.isUnderAny d))

def filterExact (c d : Container) : Container := ofList (c.tags.filter (·.isListedIn d))

/-- Add the tags of `source` that match something in `wanted`. -/
def appendMatching (c source wanted : Container) : Container :=
  c.addAll (source.tags.filter (·.isUnderAny wanted))

/-- Make every implied ancestor explicit; the cache stays as it is. -/
def withParents (c : Container) : Container :=
  ⟨c.parents.foldl addUnique c.tags, c.parents⟩

/-- Equality of the sets of explicit tags. -/
def same (c d : Container) : Bool :=
  c.size == d.size && (c.filterExact d).size == c.size

def display (c : Container) : String :=
  String.intercalate ", " (c.tags.map fun t => "\"" ++ t.name ++ "\"")

end Container
end TagTree
