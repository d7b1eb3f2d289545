import TagTree.Config.Decode

/-!
# Configuration in a directory

A configuration is a settings file and, beside it, a directory `Tags` of further
tag lists. The lists are the regular files with the extension `toml`, in the
order of their names, and each is named by its file. A directory that does not
exist has no lists.

A file tree is a list of files with their bytes and a set of directories, which
is as much as the loader looks at. Paths are taken apart before anything else:
empty parts and single dots are dropped, and two dots go back one part. A file
whose bytes are not text cannot be read.

Loading reads the settings first. The lists are read only if the settings ask
for them, in increasing order of their names, and the first one that cannot be
read or breaks a rule ends the loading, so that a configuration either is whole
or does not exist. Nothing in this module changes a registry.
-/
namespace TagTree.Config

/-- A path by its parts; the empty path is the root. -/
abbrev Path := List String

/-- Files with their bytes, and directories that need not hold any. -/
structure FileTree where
  files : List (Path × List UInt8) := []
  directories : List Path := []
deriving Repr, Inhabited

/-- The parts of a written path. Empty parts and single dots mean nothing, two dots lead back. -/
def pathOf (text : String) : Path :=
  (text.splitOn "/").foldl step []
where
  step (path : Path) (part : String) : Path :=
    if part = "" ∨ part = "." then path
    else if part = ".." then path.dropLast
    else path ++ [part]

namespace FileTree

/-- Write a file over whatever has its path. -/
def write (t : FileTree) (path : Path) (bytes : List UInt8) : FileTree :=
  { t with files := t.files.filter (·.1 != path) ++ [(path, bytes)] }

def isDirectory (t : FileTree) (path : Path) : Bool :=
  path.isEmpty || t.directories.any path.isPrefixOf
    || t.files.any fun f => path.isPrefixOf f.1 && path != f.1

def read (t : FileTree) (path : Path) : Except ConfigError String :=
  match t.files.lookup path with
  | none => .error .unreadable
  | some bytes =>
    match String.fromUTF8? (ByteArray.mk bytes.toArray) with
    | some text => .ok text
    | none => .error .unreadable

def filesIn (t : FileTree) (dir : Path) : List String :=
  t.files.filterMap fun f =>
    match f.1.getLast? with
    | some name => if f.1.dropLast = dir then some name else none
    | none => none

end FileTree

/-- The characters after the last dot of a file name, unless nothing stands before the dot. -/
def extension? (name : String) : Option String :=
  match (name.splitOn ".").reverse with
  | last :: stem :: rest => if rest = [] ∧ stem = "" then none else some last
  | _ => none

def insertName (name : String) : List String → List String
  | [] => [name]
  | n :: rest => if n < name then n :: insertName name rest else name :: n :: rest

/-- The names of the tag lists of a directory. -/
def listNames (t : FileTree) (dir : Path) : List String :=
  ((t.filesIn dir).filter fun n => extension? n == some "toml").foldr insertName []

def loadNamed (t : FileTree) (dir : Path) : List String → Except ConfigError (List TagList)
  | [] => .ok []
  | name :: rest => do
    let text ← t.read (dir ++ [name])
    let list ← tagList name text
    let later ← loadNamed t dir rest
    .ok (list :: later)

def loadLists (t : FileTree) (dir : Path) : Except ConfigError (List TagList) :=
  if t.isDirectory dir then loadNamed t dir (listNames t dir) else .ok []

/-- The directory of the tag lists that belong to a settings file. -/
def listDirectory (settingsFile : Path) : Path := settingsFile.dropLast ++ ["Tags"]

/-- The settings of a file, with the tag lists beside it if they ask for them. -/
def load (t : FileTree) (settingsFile : Path) : Except ConfigError Configuration := do
  let text ← t.read settingsFile
  let settings ← settings text
  let lists ← if settings.importTags then loadLists t (listDirectory settingsFile) else .ok []
  .ok ⟨settings, lists⟩

end TagTree.Config
