import TagTree.Error
import TagTree.Tag

/-!
# Events

What the library reports beside its answers: warnings about input that is
skipped and errors about requests that fail. An operation that may report
returns a `Logged` value, which carries the events in the order of their
emission, so that a report is part of the operation's meaning and not an effect.

An event is one report with its data. Its level, its message and its named
fields are functions of the event, so that a proof about what is reported is a
proof about the events and never about texts. Two operations that report the
same events report the same messages with the same fields.

`Logged` is a writer over lists of events. The value of a sequence is the value
of its parts, and its events are the events of the parts in their order; the
simp lemmas at the end say no more than this, and they are what the proofs about
reports unfold with. No operation takes an event back or looks at those that
were reported before.
-/
namespace TagTree

inductive Level where
  | warning
  | error
deriving DecidableEq, Repr

inductive Event where
  | nativeTagLate (tag : String)
  | nativeBatchFailed (cause : RegistryError)
  | nativeTagDropped (tag : String) (cause : RegistryError)
  | rowSkipped (source tag : String) (cause : RegistryError)
  | tagMissing (tag : String)
  | unknownTagIgnored (tag : String)
  | redirectToItself (tag : String)
  | redirectRepeated (tag : String)
  | redirectUnsettled (tag : String) (maxHops : Nat)
  | redirectKept (tag : Tag)
  | redirectShadowed (old new : String)
  | redirectDangling (old new : String)
  | commonTagMissing (tag : String)
  | indexOverflow (registered capacity maxBits : Nat)
  | indexTooWide (index : Nat)
  | indexUnknown (index size : Nat)
  | containerCut (count limit sizeBits : Nat)
  | tagOnExprNode (tag : Tag)
  | tagsOnExprNode
  | exprOnTagNode
  | queryMalformed (reason : String) (cursor length : Nat)
  | registryRequestedEarly
deriving DecidableEq, Repr

namespace Event

def level : Event → Level
  | .nativeTagLate _ | .nativeBatchFailed _ | .tagMissing _ | .indexOverflow .. => .error
  | _ => .warning

def message : Event → String
  | .nativeTagLate _ => "native tag added after native tag registration finished"
  | .nativeBatchFailed _ => "failed to register native gameplay tags"
  | .nativeTagDropped .. => "dropping native tag during rebuild"
  | .rowSkipped .. => "skipping invalid tag row"
  | .tagMissing _ => "requested gameplay tag was not found"
  | .unknownTagIgnored _ => "ignoring unknown gameplay tag"
  | .redirectToItself _ => "ignoring redirect that points at itself"
  | .redirectRepeated _ => "duplicate redirect, keeping the first one"
  | .redirectUnsettled .. => "redirect chain did not converge"
  | .redirectKept _ => "invalid redirect, keeping the old tag"
  | .redirectShadowed .. =>
    "redirected tag still exists in the tag tree, lookups will not be redirected"
  | .redirectDangling .. => "invalid redirect target, cannot replace old tag"
  | .commonTagMissing _ => "commonly replicated tag is not registered"
  | .indexOverflow .. =>
    "too many tags for the net index width, truncating the net index table"
  | .indexTooWide _ => "received net index does not fit the index type"
  | .indexUnknown .. => "received net index is out of range, tag tables are out of sync"
  | .containerCut .. => "tag container too large to replicate, dropping the excess tags"
  | .tagOnExprNode _ => "cannot add a tag to an expression-list query node"
  | .tagsOnExprNode => "cannot add tags to an expression-list query node"
  | .exprOnTagNode => "cannot add an expression to a tag-list query node"
  | .queryMalformed .. => "error parsing tag query"
  | .registryRequestedEarly =>
    "global gameplay tag registry requested while it is being initialized"

def fields : Event → List (String × String)
  | .nativeTagLate tag | .tagMissing tag | .unknownTagIgnored tag | .redirectToItself tag
  | .redirectRepeated tag | .commonTagMissing tag => [("tag", tag)]
  | .nativeBatchFailed cause => [("err", cause.message)]
  | .nativeTagDropped tag cause => [("tag", tag), ("err", cause.message)]
  | .rowSkipped source tag cause => [("source", source), ("tag", tag), ("err", cause.message)]
  | .redirectUnsettled tag maxHops => [("tag", tag), ("max_hops", toString maxHops)]
  | .redirectKept tag | .tagOnExprNode tag => [("tag", tag.display)]
  | .redirectShadowed old new | .redirectDangling old new =>
    [("old_tag", old), ("new_tag", new)]
  | .indexOverflow registered capacity maxBits =>
    [("registered", toString registered), ("capacity", toString capacity),
      ("max_bits", toString maxBits)]
  | .indexTooWide index => [("index", toString index)]
  | .indexUnknown index size => [("index", toString index), ("table_len", toString size)]
  | .containerCut count limit sizeBits =>
    [("count", toString count), ("max_count", toString limit), ("size_bits", toString sizeBits)]
  | .queryMalformed reason cursor length =>
    [("reason", reason), ("cursor", toString cursor), ("len", toString length)]
  | .tagsOnExprNode | .exprOnTagNode | .registryRequestedEarly => []

end Event

/-- A value and what was reported while it was made. -/
structure Logged (α : Type) where
  value : α
  events : List Event
deriving Repr

namespace Logged

variable {α β : Type}

protected def pure (a : α) : Logged α := ⟨a, []⟩

protected def bind (x : Logged α) (f : α → Logged β) : Logged β :=
  let y := f x.value
  ⟨y.value, x.events ++ y.events⟩

instance : Monad Logged where
  pure := Logged.pure
  bind := Logged.bind

def emit (e : Event) : Logged Unit := ⟨(), [e]⟩

/-- Report one event if `cond` holds. -/
def emitIf (cond : Bool) (e : Event) : Logged Unit := ⟨(), if cond then [e] else []⟩

@[simp] theorem value_pure (a : α) : (pure a : Logged α).value = a := rfl
@[simp] theorem events_pure (a : α) : (pure a : Logged α).events = [] := rfl

@[simp] theorem value_bind (x : Logged α) (f : α → Logged β) :
    (x >>= f).value = (f x.value).value := rfl

@[simp] theorem events_bind (x : Logged α) (f : α → Logged β) :
    (x >>= f).events = x.events ++ (f x.value).events := rfl

@[simp] theorem value_emit (e : Event) : (emit e).value = () := rfl
@[simp] theorem events_emit (e : Event) : (emit e).events = [e] := rfl

end Logged
end TagTree
