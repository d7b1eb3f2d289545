import TagTree.Registry.Redirects

/-!
# Loading tags

Rows enter a registry in bulk from a source or one by one from code. A row with
a refused name leaves the tree alone. Finalizing ends the registrations from
code and builds the index table; rows of other sources may still come, and the
table follows them. Rebuilding forgets the tree and loads the accepted rows
again in the order they first came.

What a row does is said once, in `claim`. Code takes over the entry of a name
from whatever had it; another source takes an entry only if it has no source
yet. A comment that is not empty stays, whoever gave it. `insertName` registers
the name with its ancestors and claims the entry of the last, and the operations
differ in what they check before and in what they record after.

Registering from code is refused and reported once the registry is finalized.
Before that it makes the source of code, then checks the name, so a refused name
may leave that source behind without rows; a name that code registered already
is not recorded again. Rows of other sources are checked one by one, and a
refused row is reported and skipped. Loading into a finalized registry makes the
index table anew if any row was accepted.

A rebuild goes through the log from an empty tree, with the kinds that the
sources have by then. Redirects, settings and names of sources stay as they
were.
-/
namespace TagTree.Registry

/-- The registered tags among `names`, in order; the others are reported. -/
def findCommon (r : Registry) : List String → Logged (List Tag)
  | [] => pure []
  | name :: rest =>
    match r.find? name with
    | some tag => do pure (tag :: (← r.findCommon rest))
    | none => do
      Logged.emit (.commonTagMissing name)
      r.findCommon rest

def reindex (r : Registry) : Logged Registry := do
  let common ← r.findCommon r.settings.common
  let table ← IndexTable.build r.tree.tags common r.settings.maxBits
  pure { r with common, table, tree := r.tree.reindex table.tags }

def indexOf (r : Registry) (t : Tag) : Nat :=
  ((r.tree.node? t.name).bind (·.index)).getD r.table.sentinel

/-- The tag of an index. The sentinel is the invalid tag; another index that no tag has is reported. -/
def tagOfIndex (r : Registry) (index : Nat) : Logged Tag :=
  if index = r.table.sentinel then pure .invalid
  else match r.table.tagAt? index with
    | some tag => pure tag
    | none => do
      Logged.emit (.indexUnknown index r.table.size)
      pure .invalid

/-- What a row does to the entry it names: code takes the entry over, any other source takes it only
if no source has it, and the first comment that is not empty stays. -/
def claim (source : String) (native : Bool) (comment : String) (e : Entry) : Entry :=
  { source := if native || e.source.isNone then some source else e.source
    comment := if e.comment = "" then comment else e.comment }

/-- Why a name cannot be registered. -/
def nameError? (name : String) : Option RegistryError :=
  if name = "" then some .emptyTagName
  else (Name.fault? name).map (.invalidTagName name)

/-- Register a name with its ancestors and claim its entry. -/
def insertName (r : Registry) (name source : String) (native : Bool) (comment : String) :
    Except RegistryError Registry :=
  match nameError? name with
  | some cause => .error cause
  | none =>
    .ok { r with tree := r.tree.insert (claim source native comment) name }

/-- The registry with a source of this name; one that exists keeps its kind. -/
def withSource (r : Registry) (name : String) (kind : SourceKind) : Registry :=
  if (r.source? name).isSome then r
  else { r with sources := r.sources ++ [⟨name, kind, []⟩] }

/-- Note an accepted row under its source and in the log. -/
def record (r : Registry) (source : String) (row : Row) : Registry :=
  { r with
    sources := r.sources.map fun s =>
      if s.name = source then { s with rows := s.rows ++ [row] } else s
    log := r.log ++ [(source, row)] }

def loadRows (r : Registry) (source : String) : List Row → Logged (Registry × Nat)
  | [] => pure (r, 0)
  | row :: rest =>
    match r.insertName row.tag source false row.comment with
    | .ok r => do
      let (r, n) ← (r.record source row).loadRows source rest
      pure (r, n + 1)
    | .error cause => do
      Logged.emit (.rowSkipped source row.tag cause)
      r.loadRows source rest

/-- Load rows from a source and count those accepted; a finalized registry is indexed again. -/
def load (r : Registry) (source : String) (kind : SourceKind) (rows : List Row) :
    Logged (Registry × Nat) := do
  let (r, n) ← (r.withSource source kind).loadRows source rows
  if r.finalized && 0 < n then do pure (← r.reindex, n)
  else pure (r, n)

/-- Load one row of an external table. -/
def addRow (r : Registry) (source : String) (row : Row) : Logged (Registry × Bool) := do
  let (r, n) ← r.load source .dataTable [row]
  pure (r, n == 1)

/-- Register a tag from code. -/
def addNative (r : Registry) (row : Row) : Logged (Registry × Except RegistryError Tag) :=
  if r.finalized then do
    Logged.emit (.nativeTagLate row.tag)
    pure (r, .error (.nativeTagsFinalized row.tag))
  else
    let r := r.withSource Source.native .native
    match r.insertName row.tag Source.native true row.comment with
    | .error cause => pure (r, .error cause)
    | .ok r =>
      let known := (r.source? Source.native).any fun s => s.rows.any (·.tag == row.tag)
      pure (if known then r else r.record Source.native row, .ok ⟨row.tag⟩)

def addNatives (r : Registry) : List Row → Logged (Registry × Except RegistryError Unit)
  | [] => pure (r, .ok ())
  | row :: rest => do
    match ← r.addNative row with
    | (r, .ok _) => r.addNatives rest
    | (r, .error cause) => pure (r, .error cause)

/-- End the registrations from code, report redirects without effect and build the index table. -/
def finalize (r : Registry) : Logged Registry :=
  if r.finalized then pure r
  else do
    let r := { r with finalized := true }
    r.checkRedirectsOf r.sortedRedirects
    r.reindex

def replayRow (r : Registry) (source : String) (row : Row) : Logged Registry :=
  match r.source? source with
  | none => pure r
  | some s =>
    if s.kind = .native then do
      match ← r.addNative row with
      | (r, .ok _) => pure r
      | (r, .error cause) => do
        Logged.emit (.nativeTagDropped row.tag cause)
        pure r
    else do pure (← r.load source s.kind [row]).1

def replay (r : Registry) : List (String × Row) → Logged Registry
  | [] => pure r
  | (source, row) :: rest => do
    let r ← r.replayRow source row
    r.replay rest

/-- The registry without its tags: settings, redirects and the names of its sources stay. -/
def cleared (r : Registry) : Registry :=
  { empty r.settings with
    redirects := r.redirects
    sources := r.sources.map fun s => { s with rows := [] } }

/-- Forget the tree and load the log again; what was finalized is finalized again. -/
def rebuild (r : Registry) : Logged Registry := do
  let fresh ← r.cleared.replay r.log
  if r.finalized then fresh.finalize else pure fresh

end TagTree.Registry
