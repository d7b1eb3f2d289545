import TagTree.Error

/-!
# Settings

The rows a registry is made of, the settings that govern it and the rules
settings have to obey. Settings handed to a registry directly are not checked;
`check` is for those that come from a file.

A row is a name with a comment; a redirect is a pair of names. A tag list is a
named group of rows, and a configuration is the settings together with the lists
that were found with them. The numbers in the settings are widths of fields and
a bound on how many redirects a lookup follows.

The rules are checked in a fixed order and the first breach is the one that is
told. The widths of the count and of an index have to be between one and
sixteen, at least one redirect has to be followed, the names of rows and of the
common tags have to be valid, and a redirect leads from one valid name to
another, with no two for one old name. A registry that is made without this
check works as well, and what its codec does outside the rules is part of its
definition.
-/
namespace TagTree

structure Row where
  tag : String
  comment : String := ""
deriving DecidableEq, Repr, Inhabited

/-- A renamed tag: lookups of `old` go to `new`. -/
structure Redirect where
  old : String
  new : String
deriving DecidableEq, Repr, Inhabited

structure TagList where
  name : String
  rows : List Row
deriving DecidableEq, Repr, Inhabited

structure Settings where
  /-- Load the rows of the settings and the tag lists that come with them. -/
  importTags : Bool := true
  /-- Report names in received data that are not known. -/
  warnOnInvalid : Bool := true
  /-- Send tags by index; else by name. -/
  fast : Bool := true
  /-- Width of the field that counts the tags of a container. -/
  sizeBits : Nat := 6
  /-- Width of the first segment of a packed index. -/
  firstBits : Nat := 16
  /-- Width of an index. -/
  maxBits : Nat := 16
  /-- How many redirects a lookup follows. -/
  maxHops : Nat := 10
  /-- Names of the tags that get the first indices. -/
  common : List String := []
  rows : List Row := []
  redirects : List Redirect := []
deriving DecidableEq, Repr, Inhabited

structure Configuration where
  settings : Settings
  lists : List TagList
deriving DecidableEq, Repr, Inhabited

def checkName (name : String) : Except SettingsFault Unit :=
  match Name.fault? name with
  | some fault => .error (.badName name fault)
  | none => .ok ()

def checkNames : List String → Except SettingsFault Unit
  | [] => .ok ()
  | name :: rest => checkName name >>= fun _ => checkNames rest

def checkRows (rows : List Row) : Except SettingsFault Unit :=
  checkNames (rows.map (·.tag))

/-- Check redirects in order; `seen` holds the old names that are taken. -/
def checkRedirects : List String → List Redirect → Except SettingsFault Unit
  | _, [] => .ok ()
  | seen, r :: rest => do
    checkName r.old
    checkName r.new
    if r.old = r.new then .error (.selfRedirect r.old)
    else if seen.contains r.old then .error (.repeatedRedirect r.old)
    else checkRedirects (r.old :: seen) rest

def checkWidth (field : String) (value : Nat) : Except SettingsFault Unit :=
  if 1 ≤ value ∧ value ≤ 16 then .ok () else .error (.widthOutOfRange field value)

/-- The rules for settings: widths first, then rows, common names and redirects. -/
def Settings.check (s : Settings) : Except SettingsFault Unit := do
  checkWidth "num_bits_for_container_size" s.sizeBits
  checkWidth "net_index_max_bits" s.maxBits
  if s.maxHops = 0 then .error .noHops
  checkRows s.rows
  checkNames s.common
  checkRedirects [] s.redirects

end TagTree
