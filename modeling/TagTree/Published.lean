import TagTree.Registry.Loading

/-!
# The published registry

One registry can be published for a whole program. It is finalized when it is
published and stays the same instance until it is taken down. It can also be
made on first access by an initializer, which may itself use the slot: while an
initializer runs and nothing is published, an access gets an empty registry of
its own, and what the initializer publishes wins over what it returns. A script
says what a thread does with the slot, initializers included.

The host numbers the registries that were made on the way, so that an instance
is a number and two handles are one instance if their numbers are equal. The
slot holds the number of the published instance. Publishing a second registry is
refused and leaves the slot alone, taking down empties it, and the instances
that were handed out before go on to exist.

Scripts are run by recursion over the script. A script inside an initializer is
run with the mark that an initializer is running, and everything it does to the
slot is seen by the steps that follow it. When it ends, the registry it returns
is offered: if the slot was filled meanwhile the offer is dropped, and the
access answers what stands in the slot.
-/
namespace TagTree

/-- The registries made so far, by number, and the state of the slot. -/
structure Host where
  instances : List Registry := []
  /-- The number of the published registry. -/
  slot : Option Nat := none
  initializing : Bool := false
deriving Repr, Inhabited

/-- What a thread does with the slot, step by step. `getOrInit body made` runs `body` and then offers
`made`, if nothing is published yet. -/
inductive Script where
  | stop
  | publish (registry : Registry) (next : Script)
  | get (next : Script)
  | getOrInit (body : Script) (made : Registry) (next : Script)
  | tryGet (next : Script)
  | isPublished (next : Script)
  | takeDown (next : Script)
deriving Repr

/-- What a step answers: the number of an instance, if there is one, or whether there is one. -/
inductive Answer where
  | handle (number : Nat)
  | nothing
  | refused (cause : RegistryError)
  | flag (b : Bool)
  /-- The instance, whether the initializer ran, and what its steps answered. -/
  | initialized (number : Nat) (ran : Bool) (inner : List Answer)
deriving Repr, Inhabited

namespace Host

def instance? (p : Host) (number : Nat) : Option Registry := p.instances[number]?

def allocate (p : Host) (r : Registry) : Host × Nat :=
  ({ p with instances := p.instances ++ [r] }, p.instances.length)

/-- Finalize a registry and put it into the empty slot. -/
def fill (p : Host) (r : Registry) : Logged (Host × Nat) := do
  let r ← r.finalize
  let (p, number) := p.allocate r
  pure ({ p with slot := some number }, number)

def publish (p : Host) (r : Registry) : Logged (Host × Except RegistryError Nat) :=
  if p.slot.isSome then pure (p, .error .alreadyPublished)
  else do
    let (p, number) ← p.fill r
    pure (p, .ok number)

def placeholder (p : Host) : Logged (Host × Nat) := do
  Logged.emit .registryRequestedEarly
  let r ← (Registry.empty {}).finalize
  pure (p.allocate r)

/-- Offer the registry of an initializer that has ended; what it published itself wins. -/
def settle (p : Host) (made : Registry) : Logged (Host × Nat) := do
  let made ← made.finalize
  match p.slot with
  | some number => pure (p, number)
  | none =>
    let (p, number) := p.allocate made
    pure ({ p with slot := some number }, number)

def takeDown (p : Host) : Host × Option Nat := ({ p with slot := none }, p.slot)

/-- Run a script and give the answers of its steps. -/
def run : Script → Host → Logged (Host × List Answer)
  | .stop, p => pure (p, [])
  | .publish r next, p => do
    let (p, outcome) ← p.publish r
    let answer := match outcome with
      | .ok number => Answer.handle number
      | .error cause => .refused cause
    let (p, later) ← run next p
    pure (p, answer :: later)
  | .get next, p => do
    let (p, number) ← match p.slot with
      | some number => pure (p, number)
      | none => if p.initializing then p.placeholder else p.settle (Registry.empty {})
    let (p, later) ← run next p
    pure (p, .handle number :: later)
  | .getOrInit body made next, p => do
    let (p, answer) ← match p.slot with
      | some number => pure (p, Answer.initialized number false [])
      | none =>
        if p.initializing then do
          let (p, number) ← p.placeholder
          pure (p, .initialized number false [])
        else do
          let (p, inner) ← run body { p with initializing := true }
          let (p, number) ← { p with initializing := false }.settle made
          pure (p, .initialized number true inner)
    let (p, later) ← run next p
    pure (p, answer :: later)
  | .tryGet next, p => do
    let (p', later) ← run next p
    pure (p', (match p.slot with | some number => .handle number | none => .nothing) :: later)
  | .isPublished next, p => do
    let (p', later) ← run next p
    pure (p', .flag p.slot.isSome :: later)
  | .takeDown next, p => do
    let (p', number) := p.takeDown
    let (p', later) ← run next p'
    pure (p', (match number with | some number => .handle number | none => .nothing) :: later)

end Host
end TagTree
