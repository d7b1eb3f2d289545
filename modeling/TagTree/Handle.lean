import TagTree.Tag

/-!
# Handles

A handle is a tag as a registry gives it out. It brings along the handles of its
ancestors as they were when its node was made, so it answers what concerns the
hierarchy without its registry and outlives it. Handles are compared by name
only. The invalid tag has no handle. Elsewhere a tag is its name, and its
ancestors are read off the name.

What a handle answers about its ancestors is therefore what the registry knew
when the node was made, and nodes are never changed in this respect. The lemmas
about handles show that the two accounts agree: the stored ancestors are the
ones that the name spells, so a handle and its tag answer the same.

A handle holds handles, so structural equality on it is defined by recursion
over the nesting. The equality that programs see is `alike`, which looks at the
names alone.
-/
namespace TagTree

structure Handle where
  name : String
  /-- Handles of the ancestors, nearest first. -/
  parents : List Handle
deriving Repr

namespace Handle

mutual

/-- Whether two handles are the same in all that they carry. -/
def decEq : (a b : Handle) → Decidable (a = b)
  | ⟨m, ps⟩, ⟨n, qs⟩ =>
    if hname : m = n then
      match decEqAll ps qs with
      | isTrue hparents => isTrue (by rw [hname, hparents])
      | isFalse hparents => isFalse fun h => hparents (Handle.mk.inj h).2
    else isFalse fun h => hname (Handle.mk.inj h).1

def decEqAll : (as bs : List Handle) → Decidable (as = bs)
  | [], [] => isTrue rfl
  | [], _ :: _ => isFalse nofun
  | _ :: _, [] => isFalse nofun
  | a :: as, b :: bs =>
    match decEq a b, decEqAll as bs with
    | isTrue hhead, isTrue htail => isTrue (by rw [hhead, htail])
    | isFalse hhead, _ => isFalse fun h => hhead (List.cons.inj h).1
    | isTrue _, isFalse htail => isFalse fun h => htail (List.cons.inj h).2

end

instance : DecidableEq Handle := decEq

def tag (h : Handle) : Tag := ⟨h.name⟩

/-- Equality as handles have it: by name. -/
def alike (a b : Handle) : Bool := a.name == b.name

def lineage (h : Handle) : List Handle := h :: h.parents

def directParent? (h : Handle) : Option Handle := h.parents.head?

def depth (h : Handle) : Nat := h.lineage.length

def isUnder (a b : Handle) : Bool := a.alike b || a.parents.any (·.alike b)

def sharedDepth (a b : Handle) : Nat := (a.lineage.filter b.isUnder).length

end Handle
end TagTree
