import TagTree.Registry.Basic

/-!
# Redirects and lookup

A redirect sends lookups of an old name to a new one, and the new name may be
redirected in turn. A chain is followed for a bounded number of steps and ends
at the first registered name. A registered name is never redirected. `request`
is the lookup that reports a name it cannot resolve, once.

Redirects are kept in the order of their addition, each old name once. `follow`
counts hops down, so a cycle ends at the bound, which is reported under the name
that the lookup began with. A lookup goes to the registered name first and to
the redirects second, and the invalid tag is what is left.

Requests are lookups that report. A name that fails is reported once for a
registry, by noting it as missing; the empty name and the word for no tag are
never reported. A container is redirected by finding the replacements of its
explicit tags first and then exchanging them one after the other, so an exchange
may undo or repeat what an earlier one did.
-/
namespace TagTree.Registry

def target? (r : Registry) (old : String) : Option String :=
  (r.redirects.find? (·.old == old)).map (·.new)

/-- Add a redirect; one that leads to its own name or repeats an old name is refused. -/
def addRedirect (r : Registry) (d : Redirect) : Logged (Registry × Bool) :=
  if d.old = d.new then do
    Logged.emit (.redirectToItself d.old)
    pure (r, false)
  else if (r.target? d.old).isSome then do
    Logged.emit (.redirectRepeated d.old)
    pure (r, false)
  else pure ({ r with redirects := r.redirects ++ [d] }, true)

def addRedirects (r : Registry) : List Redirect → Logged Registry
  | [] => pure r
  | d :: rest => do
    let (r, _) ← r.addRedirect d
    r.addRedirects rest

/-- Insert into a list ordered by old name. -/
def insertRedirect (d : Redirect) : List Redirect → List Redirect
  | [] => [d]
  | e :: rest => if d.old < e.old then d :: e :: rest else e :: insertRedirect d rest

def sortedRedirects (r : Registry) : List Redirect := r.redirects.foldr insertRedirect []

/-- Follow redirects from `current` for at most `hops` steps. Running out of steps with a redirect
left to follow is reported under the name the lookup began with. -/
def follow (r : Registry) (start : String) : Nat → String → Logged (Option Tag)
  | 0, current => do
    Logged.emitIf (r.target? current).isSome (.redirectUnsettled start r.settings.maxHops)
    pure none
  | hops + 1, current =>
    match r.target? current with
    | none => pure none
    | some next =>
      match r.find? next with
      | some tag => pure (some tag)
      | none => follow r start hops next

def resolve (r : Registry) (name : String) : Logged (Option Tag) :=
  r.follow name r.settings.maxHops name

def lookup (r : Registry) (name : String) : Logged Tag :=
  if name = "" ∨ name = Name.none then pure .invalid
  else match r.find? name with
    | some tag => pure tag
    | none => do pure ((← r.resolve name).getD .invalid)

/-- Whether a lookup that failed is one to report. -/
def isReportable (r : Registry) (name : String) (tag : Tag) : Bool :=
  !tag.isValid && name != "" && name != Name.none && !r.reported.contains name

def request (r : Registry) (name : String) : Logged (Registry × Tag) := do
  let tag ← r.lookup name
  if r.isReportable name tag then
    Logged.emit (.tagMissing name)
    pure ({ r with reported := name :: r.reported }, tag)
  else pure (r, tag)

def requestIf (r : Registry) (report : Bool) (name : String) : Logged (Registry × Tag) :=
  if report then r.request name else do pure (r, ← r.lookup name)

def requestAllIf (r : Registry) (report : Bool) : List String → Logged (Registry × List Tag)
  | [] => pure (r, [])
  | name :: rest => do
    let (r, tag) ← r.requestIf report name
    let (r, tags) ← r.requestAllIf report rest
    pure (r, tag :: tags)

/-- The explicit tags that a redirect replaces, each with its replacement. A tag whose redirect leads
nowhere is reported and left out. -/
def replacements (r : Registry) : List Tag → Logged (List (Tag × Tag))
  | [] => pure []
  | t :: rest =>
    if (r.target? t.name).isSome then do
      match ← r.resolve t.name with
      | some new => do pure ((t, new) :: (← r.replacements rest))
      | none => do
        Logged.emit (.redirectKept t)
        r.replacements rest
    else r.replacements rest

/-- Replace the explicit tags that have a redirect, one after the other, and count them. -/
def redirectContainer (r : Registry) (c : Container) : Logged (Container × Nat) := do
  let pairs ← r.replacements c.tags
  pure (pairs.foldl (fun c p => (c.remove p.1).2.add p.2) c, pairs.length)

/-- Report a redirect that can never apply or leads nowhere. -/
def checkRedirect (r : Registry) (d : Redirect) : Logged Unit :=
  if r.contains d.old then Logged.emit (.redirectShadowed d.old d.new)
  else do
    match ← r.resolve d.old with
    | some _ => pure ()
    | none => Logged.emit (.redirectDangling d.old d.new)

def checkRedirectsOf (r : Registry) : List Redirect → Logged Unit
  | [] => pure ()
  | d :: rest => do
    r.checkRedirect d
    r.checkRedirectsOf rest

end TagTree.Registry
