import TagTree.Handle

/-!
# The tree of tags

Nodes stand in one array in the order they were made, the root first, and refer
to one another by position. A node keeps its children in increasing order of
their segments, so that a child is found by halving, and a map leads from a full
name to its node. Registering a name walks down from the root and makes the
nodes that are missing, on several levels if need be.

A node holds the handle data of its tag, what sources say of it, the position of
its parent, the positions of its children and, once indices are assigned, its
index. `enter` finds or makes one child, `descend` does so for the segments of a
name one after the other, and `insert` ends by changing what is known of the
last node only. Positions never change and nodes are never taken away, so a
position that was handed out stays good.

The walks are defined on the positions. `unwind` takes positions from a stack
and puts their children there, so it lists parents before children and siblings
in order, in as many steps as the tree has nodes. `climb` goes from a node to
the root. Both are given a number of steps that suffices for a tree that was
built by registering; the proofs show that it does.
-/
namespace TagTree

/-- What the sources say of a node. A node without a source exists only because of its descendants. -/
structure Entry where
  source : Option String := none
  comment : String := ""
deriving DecidableEq, Repr, Inhabited

structure Node where
  segment : String
  tag : Tag
  /-- Handles of the tag's ancestors, nearest first. -/
  above : List Handle
  /-- Position of the parent; only the root has none. -/
  parent : Option Nat
  /-- Positions of the children. -/
  children : List Nat
  entry : Entry
  /-- Position of the tag in the index table. -/
  index : Option Nat
deriving DecidableEq, Repr

namespace Node

def root : Node :=
  { segment := "", tag := .invalid, above := [], parent := none, children := [], entry := {},
    index := none }

instance : Inhabited Node := ⟨root⟩

def handle (n : Node) : Handle := ⟨n.tag.name, n.above⟩

def lineage (n : Node) : List Handle := if n.tag.isValid then n.handle.lineage else []

end Node

/-- Look for `key` among increasing texts by halving the window from `lo` up to `hi`. The answer is
where it stands or, as an error, where it would go. A window of `fuel` texts is settled in `fuel`
steps. -/
def bisect (text : Nat → String) (key : String) : Nat → Nat → Nat → Except Nat Nat
  | 0, lo, _ => .error lo
  | fuel + 1, lo, hi =>
    if lo < hi then
      let mid := (lo + hi) / 2
      if text mid < key then bisect text key fuel (mid + 1) hi
      else if key < text mid then bisect text key fuel lo mid
      else .ok mid
    else .error lo

structure Tree where
  nodes : Array Node
  /-- Positions of the nodes by full name, the latest first. -/
  names : List (String × Nat)
deriving DecidableEq, Repr

namespace Tree

def empty : Tree := ⟨#[.root], []⟩

instance : Inhabited Tree := ⟨empty⟩

def size (t : Tree) : Nat := t.nodes.size - 1

def node (t : Tree) (i : Nat) : Node := t.nodes.getD i .root

def position? (t : Tree) (name : String) : Option Nat := t.names.lookup name

def node? (t : Tree) (name : String) : Option Node := (t.position? name).map t.node

/-- Every tag in the order of the nodes. -/
def tags (t : Tree) : List Tag := (t.nodes.toList.drop 1).map (·.tag)

/-- The position of a node's child with this segment or, as an error, its place among the children. -/
def findChild (t : Tree) (parent : Nat) (segment : String) : Except Nat Nat :=
  let children := (t.node parent).children
  match bisect (fun k => (t.node (children.getD k 0)).segment) segment children.length 0
    children.length with
  | .ok k => .ok (children.getD k 0)
  | .error k => .error k

/-- A node below `parent`, without children and not named by any source. -/
def leaf (t : Tree) (parent : Nat) (segment name : String) : Node :=
  { segment, tag := ⟨name⟩, above := (t.node parent).lineage, parent := some parent,
    children := [], entry := {}, index := none }

/-- Make a node as the `k`-th child of `parent`; it stands at the end of the array. -/
def insertChild (t : Tree) (parent k : Nat) (segment name : String) : Tree :=
  { nodes := (t.nodes.push (t.leaf parent segment name)).modify parent fun p =>
      { p with children := p.children.insertIdx k t.nodes.size }
    names := (name, t.nodes.size) :: t.names }

/-- The position of a node's child with this segment, which is made if it is missing. -/
def enter (t : Tree) (parent : Nat) (segment name : String) : Tree × Nat :=
  match t.findChild parent segment with
  | .ok child => (t, child)
  | .error k => (t.insertChild parent k segment name, t.nodes.size)

/-- Walk down along segments of `name` from the node that ends at its first `length` characters,
making the nodes that are missing. The position reached comes with the tree. -/
def descend (name : String) : List String → Tree → Nat → Nat → Tree × Nat
  | [], t, current, _ => (t, current)
  | segment :: rest, t, current, length =>
    let length := length + (if current = 0 then segment.length else segment.length + 1)
    let next := t.enter current segment (Name.upTo length name)
    descend name rest next.1 next.2 length

/-- Change what is known of the node at a position. -/
def change (t : Tree) (i : Nat) (f : Entry → Entry) : Tree :=
  { t with nodes := t.nodes.modify i fun n => { n with entry := f n.entry } }

/-- Register `name` with its ancestors and change what is known of its own node. -/
def insert (t : Tree) (f : Entry → Entry) (name : String) : Tree :=
  let reached := descend name (Name.segments name) t 0 0
  reached.1.change reached.2 f

/-- The positions that a stack leads to, parents first and siblings in order. Every step takes one
position from the stack, so a tree is walked in as many steps as it has nodes. -/
def unwind (t : Tree) : Nat → List Nat → List Nat
  | 0, _ => []
  | _, [] => []
  | fuel + 1, i :: stack => i :: unwind t fuel ((t.node i).children ++ stack)

/-- The nodes below a position, parents first and siblings in order. -/
def below (t : Tree) (start : Nat) : List Node :=
  (t.unwind t.nodes.size (t.node start).children).map t.node

/-- The segments from the root down to a position, in front of `segments`. A node stands behind its
parent, so `fuel` steps lead to the root from any of the first `fuel` positions. -/
def climb (t : Tree) : Nat → Nat → List String → List String
  | 0, _, segments => segments
  | fuel + 1, i, segments =>
    match (t.node i).parent with
    | none => segments
    | some parent => climb t fuel parent ((t.node i).segment :: segments)

def setIndex (t : Tree) (i : Nat) (index : Option Nat) : Tree :=
  { t with nodes := t.nodes.modify i fun n => { n with index } }

/-- Give the nodes of `tags` the indices from `first` on. -/
def assign (t : Tree) : Nat → List Tag → Tree
  | _, [] => t
  | first, tag :: rest =>
    match t.position? tag.name with
    | some i => (t.setIndex i (some first)).assign (first + 1) rest
    | none => t.assign (first + 1) rest

def withoutIndices (t : Tree) : Tree :=
  { t with nodes := t.nodes.map fun n => { n with index := none } }

/-- Give each node the position of its tag in `tags`, if it has one. -/
def reindex (t : Tree) (tags : List Tag) : Tree := t.withoutIndices.assign 0 tags

end Tree
end TagTree
