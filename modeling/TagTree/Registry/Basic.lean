import TagTree.Container
import TagTree.Settings
import TagTree.Tree
import TagTree.Wire.IndexTable

/-!
# Registries

A registry owns the tree of registered names, the sources that named them, the
redirects and the index table. It also keeps the accepted rows in load order,
from which it can be made again, and the missing names it has reported, since
each is reported once.

A row is accepted under a source, and a source keeps its rows in the order of
their acceptance. The log keeps the accepted rows of all sources, and a rebuild
makes the tree from it. The index table and the common tags are empty until the
registry is finalized.

Lookups by name are lookups in the map of the tree, and the walks over the tags
are walks of the tree: parents before children, siblings in the order of their
segments. The containers of children, ancestors and all tags are made from these
walks. A name that no source gave, and that only a longer name brought along, is
registered like any other; it is told apart by having no source.
-/
namespace TagTree

/-- Where the rows of a source come from. -/
inductive SourceKind where
  | native
  | defaultList
  | tagList
  | dataTable
deriving DecidableEq, Repr, Inhabited

def SourceKind.name : SourceKind → String
  | .native => "Native"
  | .defaultList => "DefaultTagList"
  | .tagList => "TagList"
  | .dataTable => "DataTable"

def SourceKind.all : List SourceKind := [.native, .defaultList, .tagList, .dataTable]

def SourceKind.ofName? (name : String) : Option SourceKind := all.find? (·.name == name)

structure Source where
  name : String
  kind : SourceKind
  rows : List Row
deriving DecidableEq, Repr, Inhabited

namespace Source

def native : String := "Native"

def settings : String := "DefaultGameplayTags"

end Source

structure Registry where
  settings : Settings
  tree : Tree
  /-- In the order of their addition; each old name occurs once. -/
  redirects : List Redirect
  /-- In the order of their first use; each name occurs once. -/
  sources : List Source
  /-- Accepted rows with the names of their sources, in load order. -/
  log : List (String × Row)
  /-- The commonly replicated tags that were found. -/
  common : List Tag
  table : IndexTable
  finalized : Bool
  /-- Missing names that were reported. -/
  reported : List String
deriving DecidableEq, Repr

namespace Registry

/-- A registry without tags. The rows and redirects of the settings are not loaded. -/
def empty (settings : Settings) : Registry :=
  { settings, tree := .empty, redirects := [], sources := [], log := [], common := [],
    table := ⟨[]⟩, finalized := false, reported := [] }

instance : Inhabited Registry := ⟨empty {}⟩

def tagCount (r : Registry) : Nat := r.tree.size

def isEmpty (r : Registry) : Bool := r.tagCount == 0

def contains (r : Registry) (name : String) : Bool := (r.tree.position? name).isSome

/-- The registered tag of this name; redirects are not followed. -/
def find? (r : Registry) (name : String) : Option Tag := (r.tree.node? name).map (·.tag)

/-- The handle that is given out for a registered tag. -/
def handle? (r : Registry) (name : String) : Option Handle := (r.tree.node? name).map (·.handle)

/-- The nodes below the root, parents first and siblings in order. -/
def nodes (r : Registry) : List Node := r.tree.below 0

/-- Every registered tag, parents first and siblings in order. -/
def tags (r : Registry) : List Tag := r.nodes.map (·.tag)

/-- The nodes below a tag, in the same order. -/
def nodesBelow (r : Registry) (t : Tag) : List Node :=
  match r.tree.position? t.name with
  | some i => r.tree.below i
  | none => []

def children (r : Registry) (t : Tag) : Container :=
  .ofList ((r.nodesBelow t).map (·.tag))

def namedChildren (r : Registry) (t : Tag) : Container :=
  .ofList (((r.nodesBelow t).filter (·.entry.source.isSome)).map (·.tag))

/-- A registered tag and its ancestors, all explicit. -/
def lineage (r : Registry) (t : Tag) : Container :=
  match r.handle? t.name with
  | some h => .ofList (h.lineage.map (·.tag))
  | none => ∅

def directParent (r : Registry) (t : Tag) : Tag :=
  match (r.tree.node? t.name).bind (·.parent) with
  | some i => (r.tree.node i).tag
  | none => .invalid

/-- Every registered tag, or only those that some source named. -/
def allTags (r : Registry) (onlyNamed : Bool) : Container :=
  .ofList ((r.nodes.filter fun n => !onlyNamed || n.entry.source.isSome).map (·.tag))

def tagsFromSource (r : Registry) (source : String) : Container :=
  .ofList ((r.nodes.filter (·.entry.source == some source)).map (·.tag))

def segments (r : Registry) (t : Tag) : List String :=
  match r.tree.position? t.name with
  | some i => r.tree.climb r.tree.nodes.size i []
  | none => []

def entry? (r : Registry) (t : Tag) : Option Entry := (r.tree.node? t.name).map (·.entry)

def isNamed (r : Registry) (t : Tag) : Bool := (r.entry? t).any (·.source.isSome)

def source? (r : Registry) (name : String) : Option Source := r.sources.find? (·.name == name)

def sourcesOfKind (r : Registry) (kind : SourceKind) : List Source :=
  r.sources.filter (·.kind == kind)

end Registry
end TagTree
