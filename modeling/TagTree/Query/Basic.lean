import TagTree.Query.Stream
import TagTree.Registry.Redirects

/-!
# Queries

A query is a compiled expression, its dictionary and two descriptions, one given
by the user and one generated from the stream. The stream may be malformed: then
the query holds of no container and its generated description is empty, and
every attempt to read it is reported. The dictionary can be exchanged while the
logic stays, and a query can be saved with the names of its tags and resolved
again by another registry.

What a query answers is what its stream answers with the dictionary. `reading`
makes one answer of this: the value if the stream could be read, and otherwise a
fixed value with a report of the fault. The empty query has no stream and
reports nothing.

Building compiles an expression and describes it; it fails if the expression has
too many distinct tags, a node with too many elements or too deep a nesting.
Exchanging needs as many tags as the dictionary has, and generates the
description anew. A saved query keeps the names, the bytes and the description
of the user; what is restored gets its other description from the stream.
-/
namespace TagTree

structure Query where
  dictionary : List Tag
  stream : List UInt8
  userDescription : String
  autoDescription : String
deriving DecidableEq, Repr, Inhabited

namespace Query

/-- The query without an expression, which holds of nothing. -/
def empty : Query := ⟨[], [], "", ""⟩

def isEmpty (q : Query) : Bool := q.stream.isEmpty

/-- The answer of reading the stream, or the given one with a report of the fault. -/
def reading {α : Type} (q : Query) (otherwise : α) (outcome : QueryStream.Outcome α) : Logged α :=
  match outcome with
  | .ok a => pure a
  | .error fault => do
    Logged.emit (.queryMalformed fault.cause.message fault.position q.stream.length)
    pure otherwise

def holds (q : Query) (c : Container) : Logged Bool :=
  if q.isEmpty then pure false
  else q.reading false (QueryStream.evaluate q.dictionary q.stream c)

def expr? (q : Query) : Logged (Option QueryExpr) :=
  if q.isEmpty then pure none
  else q.reading none (QueryStream.decode q.dictionary q.stream)

def description (q : Query) : String :=
  if q.userDescription = "" then q.autoDescription else q.userDescription

def describe (q : Query) : Logged Query := do
  let e ← q.expr?
  pure { q with autoDescription := (e.map QueryExpr.display).getD "" }

def build (e : QueryExpr) (userDescription : String) : Except QueryError Query := do
  let (stream, dictionary) ← QueryStream.compile e
  .ok { dictionary, stream, userDescription, autoDescription := e.display }

/-- The query whether any, all or none of the tags of a container are there. -/
def ofContainer (q : Quantifier) (c : Container) : Except QueryError Query :=
  build (.tags q c.tags) ""

/-- The query of a stream, which is not checked. -/
def ofStream (dictionary : List Tag) (stream : List UInt8) : Logged Query :=
  describe { dictionary, stream, userDescription := "", autoDescription := "" }

/-- Exchange the dictionary for the tags of a container of the same size. -/
def replaceTags (q : Query) (c : Container) : Logged (Query × Bool) :=
  if c.size = q.dictionary.length then do
    pure (← describe { q with dictionary := c.tags }, true)
  else pure (q, false)

/-- Exchange the only tag of the dictionary. -/
def replaceTag (q : Query) (t : Tag) : Logged (Query × Bool) :=
  if q.dictionary.length = 1 then do
    pure (← describe { q with dictionary := [t] }, true)
  else pure (q, false)

end Query

/-- A query with names in place of tags; the invalid tag has the empty name. -/
structure SavedQuery where
  dictionary : List String := []
  stream : List UInt8 := []
  userDescription : String := ""
deriving DecidableEq, Repr, Inhabited

def Query.save (q : Query) : SavedQuery :=
  ⟨q.dictionary.map (·.name), q.stream, q.userDescription⟩

/-- Resolve the names of a saved query, each as a request that may report. One
that is unknown becomes the invalid tag and keeps its position. -/
def SavedQuery.restore (s : SavedQuery) (r : Registry) : Logged (Registry × Query) := do
  let (r, dictionary) ← r.requestAllIf r.settings.warnOnInvalid s.dictionary
  let q ← Query.ofStream dictionary s.stream
  pure (r, { q with userDescription := s.userDescription })

end TagTree
