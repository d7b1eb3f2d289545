import TagTree.Registry.Loading

/-!
# Making registries

A registry is made from settings, from a configuration with further tag lists,
or from a bundle that adds tables of tags and redirects declared in code and
leaves the registry finalized.

A configuration is loaded only if its settings ask for it: the rows of the
settings under a source of their own, every tag list under its name, and then
the redirects. Without that, the redirects are all that a configuration brings
along. Settings alone are a configuration without lists.

A bundle is what an application is made of. The configuration comes first, then
the tables of code one after the other, then the redirects of code, and in the
end the registry is finalized. A table ends at its first definition that is
refused, which is reported, and the next table begins.
-/
namespace TagTree.Registry

def loadLists (r : Registry) : List TagList → Logged Registry
  | [] => pure r
  | list :: rest => do
    let (r, _) ← r.load list.name .tagList list.rows
    r.loadLists rest

/-- Load the rows of the settings, then each tag list, then the redirects. -/
def ofConfiguration (c : Configuration) : Logged Registry := do
  let r := empty c.settings
  let r ←
    if c.settings.importTags then do
      let (r, _) ← r.load Source.settings .defaultList c.settings.rows
      r.loadLists c.lists
    else pure r
  r.addRedirects c.settings.redirects

def ofSettings (s : Settings) : Logged Registry := ofConfiguration ⟨s, []⟩

/-- Register tables of tags declared in code. A refused tag ends its table and is reported. -/
def addNativeTables (r : Registry) : List (List Row) → Logged Registry
  | [] => pure r
  | rows :: rest => do
    match ← r.addNatives rows with
    | (r, .ok _) => r.addNativeTables rest
    | (r, .error cause) => do
      Logged.emit (.nativeBatchFailed cause)
      r.addNativeTables rest

end TagTree.Registry

namespace TagTree

structure Bundle where
  configuration : Configuration
  natives : List (List Row) := []
  redirects : List (List Redirect) := []
deriving Repr, Inhabited

/-- The finalized registry of a bundle. -/
def Bundle.registry (b : Bundle) : Logged Registry := do
  let r ← Registry.ofConfiguration b.configuration
  let r ← r.addNativeTables b.natives
  let r ← r.addRedirects b.redirects.flatten
  r.finalize

end TagTree
