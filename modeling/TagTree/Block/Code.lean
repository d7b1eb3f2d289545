import TagTree.Block.Module

/-!
# Code of an expanded block

How the modules of a block are written. Tables and modules follow fixed
patterns; names stand as they were declared, texts are quoted, and the target of
a redirect keeps the spelling of its literal. The code is compact: every blank
is dropped, also inside literals.

A module is written with its documentation, its deprecation, the constants of
its item and then the modules inside it. A tag gets a constant each for its
path, its depth and its comment, beside a type that stands for it; an alias gets
the type of the tag that its path leads to, its old path, and constants that
refer to the target. The tables list the tags with their comments and the old
names with their targets, and the registration goes through the two tables in
this order.

`spacedCode` is the code with the blanks that separate its words, and `code`
drops them, so that two codes can be compared without regard to how they are
laid out.
-/
namespace TagTree.Block

def braced (body : String) : String := "\x7b" ++ body ++ "\x7d"

/-- The path of the library that the code refers to. -/
def library : String := "::bevy_gameplay_tags"

def Deprecation.code (d : Deprecation) : String :=
  match d.note with
  | some note => "#[deprecated(note = " ++ quoted note ++ ")]"
  | none => "#[deprecated]"

def Visibility.code : Visibility → String
  | .inherited => ""
  | .everywhere => "pub"
  | .upTo scope => "pub(" ++ scope.name ++ ")"
  | .inside absolute path =>
    "pub(in " ++ (if absolute then "::" else "") ++ "::".intercalate (path.map (·.name)) ++ ")"

/-- The documentation of a tag. -/
def tagSummary (path comment : String) : String :=
  "Native tag `" ++ path ++ "`" ++ if comment = "" then "." else ": " ++ comment

def tagCode (path : String) (depth : UInt8) (comment : String) : String :=
  let depth := toString depth.toNat ++ "u8"
  "#[doc = r\" Zero-sized marker for this tag.\"] " ++
  "#[derive(Clone, Copy, Debug, Default, PartialEq, Eq, Hash)] pub struct Tag; " ++
  "impl Tag " ++ braced
    ("#[doc = r\" Full dot-separated path.\"] " ++
    "pub const PATH: &'static str = " ++ quoted path ++ "; " ++
    "#[doc = r\" Depth in the tag tree (0 = top-level).\"] " ++
    "pub const DEPTH: u8 = " ++ depth ++ "; " ++
    "#[doc = r\" Developer comment.\"] " ++
    "pub const COMMENT: &'static str = " ++ quoted comment ++ ";") ++
  "impl ::core::fmt::Display for Tag " ++ braced
    ("fn fmt(&self, f: &mut ::core::fmt::Formatter<'_>) -> ::core::fmt::Result " ++
    braced "f.write_str(Self::PATH)") ++
  "impl " ++ library ++ "::NativeTag for Tag " ++ braced
    ("const PATH: &'static str = " ++ quoted path ++ "; " ++
    "const DEPTH: u8 = " ++ depth ++ ";") ++
  "pub const PATH: &'static str = Tag::PATH; " ++
  "pub const DEPTH: u8 = Tag::DEPTH; " ++
  "pub const COMMENT: &'static str = Tag::COMMENT;"

def aliasCode (oldPath : String) (climb : Nat) (descent : List String) : String :=
  "#[doc = r\" Redirect target.\"] pub type Tag = " ++
  String.join (List.replicate climb "super::") ++ String.join (descent.map (· ++ "::")) ++ "Tag; " ++
  "#[doc = r\" Name this redirect replaces.\"] " ++
  "pub const OLD_PATH: &'static str = " ++ quoted oldPath ++ "; " ++
  "pub const PATH: &'static str = <Tag as " ++ library ++ "::NativeTag>::PATH; " ++
  "pub const DEPTH: u8 = <Tag as " ++ library ++ "::NativeTag>::DEPTH;"

def Item.code : Item → String
  | .tag path depth comment => tagCode path depth comment
  | .alias oldPath climb descent => aliasCode oldPath climb descent

/-- What documents a module. -/
def Item.documentation : Item → String
  | .tag path _ comment => "#[doc = " ++ quoted (tagSummary path comment) ++ "]"
  | .alias .. => ""

def Modules.code : Modules → String
  | .nil => ""
  | .cons name deprecation item inner rest =>
    (deprecation.map (·.code)).getD "" ++ item.documentation ++
    "#[allow(non_snake_case)] pub mod " ++ name.name ++ braced (item.code ++ inner.code) ++ rest.code

def tableCode (name definition : String) (entries : List (String × String)) : String :=
  let entry (e : String × String) : String :=
    library ++ "::" ++ definition ++ "::new(" ++ e.1 ++ ", " ++ e.2 ++ "),"
  "pub const " ++ name ++ ": &'static [" ++ library ++ "::" ++ definition ++ "] = &[" ++
  String.join (entries.map entry) ++ "];"

def registerCode : String :=
  "pub fn register(registry: &mut " ++ library ++ "::TagRegistry,) " ++
  "-> ::core::result::Result<(), " ++ library ++ "::RegistryError> " ++ braced
    ("registry.register_native_tags(NATIVE_TAGS)?; " ++
    "registry.register_native_redirects(REDIRECTS); " ++
    "::core::result::Result::Ok(())")

def compact (text : String) : String := String.ofList (text.toList.filter fun c => !isBlank c)

namespace Expansion

/-- The code with the blanks that separate its words. -/
def spacedCode (x : Expansion) : String :=
  "#[allow(non_snake_case, non_camel_case_types)] " ++ x.visibility.code ++ " mod " ++
  x.root.name ++ braced
    ("#[doc = r\" Number of native tags declared (redirects excluded).\"] " ++
    "pub const NODE_COUNT: usize = " ++ toString x.rows.length ++ "usize; " ++
    "#[doc = r\" Native tags in declaration order, parents before children.\"] " ++
    tableCode "NATIVE_TAGS" "NativeTagDef"
      (x.rows.map fun row => (quoted row.tag, quoted row.comment)) ++
    "#[doc = r#\" Redirects declared with `#[redirect = \"...\"]`.\"#] " ++
    tableCode "REDIRECTS" "NativeRedirectDef"
      (x.aliases.map fun a => (quoted a.1, a.2.written)) ++
    "#[doc = r\" Register every native tag and redirect of this block.\"] " ++
    registerCode ++ x.modules.code)

def code (x : Expansion) : String := compact x.spacedCode

end Expansion
end TagTree.Block
