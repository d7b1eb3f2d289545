import TagTree.Proofs.Registry.Accepting
import TagTree.Registry.Assembly

/-!
# Runs of a registry

A run begins with a registry made from settings or a configuration and continues
with operations in any order, whose rows may be valid or not. Every registry of
a run is consistent, and its log holds the names accepted on the way. What is
registered at the end of a history are the dotted prefixes of the names that it
accepted.

`Operation` has one constructor for every operation that changes a registry, and
`run` applies them one after the other. That an operation grows a registry by
the names it accepts is known for each of them; here it is assembled for all,
with the names computed from the operation and the flag, and carried through a
whole run by induction on the list of operations.

`Reachable` is the same notion without the list, for statements in which the way
does not matter. A history keeps the way. Two histories that accept names with
the same dotted prefixes register the same names, which is the premise of
everything that is said about peers and rivals.
-/
namespace TagTree.Registry

inductive Origin where
  | empty (settings : Settings)
  | ofSettings (settings : Settings)
  | ofConfiguration (configuration : Configuration)

inductive Operation where
  | load (source : String) (kind : SourceKind) (rows : List Row)
  | addRow (source : String) (row : Row)
  | addNative (row : Row)
  | addNatives (rows : List Row)
  | addRedirect (redirect : Redirect)
  | addRedirects (redirects : List Redirect)
  | finalize
  | rebuild
  | request (name : String)

def Origin.registry : Origin → Logged Registry
  | .empty settings => pure (Registry.empty settings)
  | .ofSettings settings => Registry.ofSettings settings
  | .ofConfiguration configuration => Registry.ofConfiguration configuration

def Operation.apply (r : Registry) : Operation → Logged Registry
  | .load source kind rows => do pure (← r.load source kind rows).1
  | .addRow source row => do pure (← r.addRow source row).1
  | .addNative row => do pure (← r.addNative row).1
  | .addNatives rows => do pure (← r.addNatives rows).1
  | .addRedirect redirect => do pure (← r.addRedirect redirect).1
  | .addRedirects redirects => r.addRedirects redirects
  | .finalize => r.finalize
  | .rebuild => r.rebuild
  | .request name => do pure (← r.request name).1

/-- The names of the rows that a configuration brings along, less those refused. -/
def configuredNames (c : Configuration) : List String :=
  if c.settings.importTags then
    validNames c.settings.rows ++ c.lists.flatMap fun list => validNames list.rows
  else []

def Origin.accepted : Origin → List String
  | .empty _ => []
  | .ofSettings settings => configuredNames ⟨settings, []⟩
  | .ofConfiguration configuration => configuredNames configuration

/-- The names that an operation accepts, which for code depends on the registry being finalized. -/
def Operation.accepted (finalized : Bool) : Operation → List String
  | .load _ _ rows => validNames rows
  | .addRow _ row => validNames [row]
  | .addNative row => nativeNames finalized [row]
  | .addNatives rows => nativeNames finalized rows
  | _ => []

def run (r : Registry) : List Operation → Registry
  | [] => r
  | op :: ops => run (op.apply r).value ops

def acceptedBy (r : Registry) : List Operation → List String
  | [] => []
  | op :: ops => op.accepted r.finalized ++ acceptedBy (op.apply r).value ops

/-- The registries that occur in runs. -/
inductive Reachable : Registry → Prop
  | origin (o : Origin) : Reachable o.registry.value
  | step {r : Registry} (op : Operation) : Reachable r → Reachable (op.apply r).value

theorem loadLists_grows {r : Registry} (h : r.Consistent) (lists : List TagList) :
    Grows r (r.loadLists lists).value (lists.flatMap fun list => validNames list.rows) := by
  induction lists generalizing r with
  | nil => exact .refl h
  | cons list lists ih =>
      have hstep := (load_grows h list.name .tagList list.rows).1
      exact hstep.trans (ih hstep.consistent)

theorem ofConfiguration_grows (c : Configuration) :
    Grows (empty c.settings) (ofConfiguration c).value (configuredNames c) := by
  have h := empty_consistent c.settings
  unfold ofConfiguration configuredNames
  dsimp only
  split
  · have hrows := (load_grows h Source.settings .defaultList c.settings.rows).1
    have hlists := hrows.trans (loadLists_grows hrows.consistent c.lists)
    have hall := hlists.trans (addRedirects_grows hlists.consistent c.settings.redirects)
    rw [List.append_nil] at hall
    exact hall
  · exact addRedirects_grows h c.settings.redirects

theorem request_grows {r : Registry} (h : r.Consistent) (name : String) :
    Grows r (r.request name).value.1 [] := by
  unfold request
  rw [Logged.value_bind]
  split
  · exact h.of_eq rfl rfl rfl rfl rfl
  · exact .refl h

theorem Origin.registry_grows (o : Origin) :
    ∃ settings, Grows (Registry.empty settings) o.registry.value o.accepted := by
  cases o with
  | empty settings => exact ⟨settings, .refl (empty_consistent settings)⟩
  | ofSettings settings => exact ⟨settings, ofConfiguration_grows ⟨settings, []⟩⟩
  | ofConfiguration configuration =>
      exact ⟨configuration.settings, ofConfiguration_grows configuration⟩

theorem Operation.apply_grows {r : Registry} (h : r.Consistent) (op : Operation) :
    Grows r (op.apply r).value (op.accepted r.finalized) := by
  cases op with
  | load source kind rows => exact (load_grows h source kind rows).1
  | addRow source row => exact (load_grows h source .dataTable [row]).1
  | addNative row => exact addNative_grows h row
  | addNatives rows => exact (addNatives_grows h rows).1
  | addRedirect redirect => exact addRedirect_grows h redirect
  | addRedirects redirects => exact addRedirects_grows h redirects
  | finalize => exact finalize_grows h
  | rebuild => exact rebuild_grows h
  | request name => exact request_grows h name

theorem run_grows {r : Registry} (h : r.Consistent) (ops : List Operation) :
    Grows r (r.run ops) (r.acceptedBy ops) := by
  induction ops generalizing r with
  | nil => exact .refl h
  | cons op ops ih =>
      have hstep := op.apply_grows h
      exact hstep.trans (ih hstep.consistent)

theorem Reachable.run {r : Registry} (h : Reachable r) (ops : List Operation) :
    Reachable (r.run ops) := by
  induction ops generalizing r with
  | nil => exact h
  | cons op ops ih => exact ih (h.step op)

theorem Reachable.consistent {r : Registry} (h : Reachable r) : r.Consistent := by
  induction h with
  | origin o =>
      obtain ⟨_, ho⟩ := o.registry_grows
      exact ho.consistent
  | step op _ ih => exact (op.apply_grows ih).consistent

structure History where
  origin : Origin
  operations : List Operation

namespace History

def registry (h : History) : Registry := run h.origin.registry.value h.operations

/-- The names of all rows that were accepted. -/
def accepted (h : History) : List String :=
  h.origin.accepted ++ acceptedBy h.origin.registry.value h.operations

def Registers (h : History) (m : String) : Prop := ∃ n ∈ h.accepted, Name.DottedPrefix m n

theorem reachable (h : History) : Reachable h.registry := Reachable.run (.origin h.origin) h.operations

theorem contains_iff (h : History) (m : String) : h.registry.contains m ↔ h.Registers m := by
  obtain ⟨settings, horigin⟩ := h.origin.registry_grows
  have hgrows := horigin.trans (run_grows horigin.consistent h.operations)
  have hlogged : ∀ n, n ∈ h.registry.logged ↔ n ∈ h.accepted := by
    intro n
    rw [registry, hgrows.logged]
    simp [logged, empty, accepted]
  rw [contains, h.reachable.consistent.names, Registers]
  simp only [hlogged]

theorem contains_congr {h h' : History} (hnames : ∀ m, h'.Registers m ↔ h.Registers m) (m : String) :
    h'.registry.contains m = h.registry.contains m := by
  apply Bool.eq_iff_iff.mpr
  rw [h'.contains_iff, h.contains_iff, hnames]

end History
end TagTree.Registry
