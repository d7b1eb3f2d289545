import TagTree.Block.Declaration
import TagTree.Registry.Loading

/-!
# Modules of a declaration block

The modules that a block expands to, as data. Every declaration becomes a module
below the module of the declaration around it. The module of a tag holds what is
known of the tag. The module of an old name leads to the module of the tag that
replaces it, by a climb to the root and a descent by names; it is deprecated in
any case.

A block is not always expanded. A redirect that leads to no declared tag, or to
its own old name, is refused with a message. The names of the descent are
written as plain words, so a target with a raw word in it has no path of
modules, and the expansion stops at it. The depth of a tag is a byte and is
counted up for the level inside, whether or not something is inside, so the
expansion stops at a tag on the level after the 255th as well.

An expanded block registers its tags in the order of the table, parents before
children, and then its redirects. A tag that is refused ends the registration:
the tags behind it and all redirects are left out.
-/
namespace TagTree.Block

inductive Item where
  | tag (path : String) (depth : UInt8) (comment : String)
  | alias (oldPath : String) (climb : Nat) (descent : List String)
deriving DecidableEq, Repr

/-- Modules on one level, each with the modules inside it. -/
inductive Modules where
  | nil
  | cons (name : Identifier) (deprecation : Option Deprecation) (item : Item) (inner rest : Modules)
deriving DecidableEq, Repr, Inhabited

def aliasNote (target : String) : String := "redirected to " ++ target

def Modules.ofDeclarations (above : String) (depth : UInt8) : Declarations → Modules
  | .nil => .nil
  | .cons name a children rest =>
    let path := Name.child above name.name
    let rest := ofDeclarations above depth rest
    match a.redirect with
    | some target =>
      .cons name (some (a.deprecation.getD ⟨some (aliasNote target.value)⟩))
        (.alias path (depth.toNat + 1) (Name.segments target.value)) .nil rest
    | none =>
      .cons name a.deprecation (.tag path depth (a.comment.getD ""))
        (ofDeclarations path (depth + 1) children) rest

/-- What a block expands to: a root module with tables of its tags and old names, and a module for each
declaration. -/
structure Expansion where
  visibility : Visibility
  root : Identifier
  rows : List Row
  aliases : List (String × StringLiteral)
  modules : Modules
deriving DecidableEq, Repr

/-- Whether a path of modules can be written with a segment of a name, which has
to be a plain word from its first to its last character. -/
def isPathWord (segment : String) : Bool := (wordAt? segment.toList).any fun r => r.2.isEmpty

/-- The first segment that no path of modules can be written with is refused. -/
def checkPaths (b : Block) : Except BlockFault Unit :=
  match (b.redirects.flatMap fun d => Name.segments d.new).find? fun s => !isPathWord s with
  | some segment => .error (.notAWord segment)
  | none => .ok ()

def maxLevels : Nat := 255

/-- A tag for which the depth of the level inside is no byte any more is refused, even if nothing is
inside. -/
def checkDepth (b : Block) : Except BlockFault Unit :=
  if b.declarations.tagLevels ≤ maxLevels then .ok () else .error .tooDeep

/-- Expand a block whose redirects lead to declared tags by plain words and
whose tags are not too deep. -/
def expand (b : Block) : Except BlockFault Expansion := do
  b.check
  b.checkPaths
  b.checkDepth
  return ⟨b.visibility, b.root, b.rows, b.aliases, .ofDeclarations "" 0 b.declarations⟩

namespace Expansion

def redirects (x : Expansion) : List Redirect := x.aliases.map fun a => ⟨a.1, a.2.value⟩

def register (x : Expansion) (r : Registry) : Logged (Registry × Except RegistryError Unit) := do
  match ← r.addNatives x.rows with
  | (r, .ok ()) => do
    let r ← r.addRedirects x.redirects
    pure (r, .ok ())
  | refused => pure refused

end Expansion
end TagTree.Block
