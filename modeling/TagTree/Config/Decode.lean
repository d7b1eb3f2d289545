import TagTree.Settings
import TagTree.Toml.Document

/-!
# Settings and tag lists in TOML

How a TOML table becomes settings or a tag list. Fields that are missing take
their defaults and unknown ones are passed over; a field of a wrong type refuses
the text. A row may be written as a table or as an array of its fields in order,
of which further items are passed over. What could be read is then checked
against the rules for settings.

A field that is given twice never gets here, since the text would have no table.
Rows and redirects may be written by position, as arrays, or by name; either way
the fields are the same two. A number is one of 32 bits without sign, so a width
that is out of range can still be read and is refused by the rules with a
message of its own.

The two outcomes that are not settings stay apart: `orMalformed` is for a text
that cannot be read and `orInvalid` for what breaks a rule, which also tells the
rule. A tag list is checked by the rules for rows alone.
-/
namespace TagTree.Config

open Toml

def field {α : Type} (fields : Fields) (name : String) (default : α) (read : Item → Option α) :
    Option α :=
  match fields.lookup name with
  | none => some default
  | some item => read item

def bool? : Item → Option Bool
  | .bool b => some b
  | _ => none

/-- A number of 32 bits without sign. -/
def number? : Item → Option Nat
  | .integer n => if 0 ≤ n ∧ n < 0x100000000 then some n.toNat else none
  | _ => none

def string? : Item → Option String
  | .string s => some s
  | _ => none

/-- The elements of an array, or the tables under a repeated header, each read by `one`. -/
def list? {α : Type} (one : Item → Option α) : Item → Option (List α)
  | .array items => items.mapM one
  | .tables elements => elements.mapM fun fields => one (.inline fields)
  | _ => none

/-- The values of the fields `names`, given by name or by position. -/
def parts? (names : List String) : Item → Option (List (Option Item))
  | .inline fields => some (names.map fun n => fields.lookup n)
  | .table _ fields => some (names.map fun n => fields.lookup n)
  | .array items => some ((List.range names.length).map fun i => items[i]?)
  | _ => none

def row? (item : Item) : Option Row := do
  match ← parts? ["tag", "dev_comment"] item with
  | [some tag, comment] => do
    let tag ← string? tag
    match comment with
    | none => some { tag }
    | some comment => do some { tag, comment := ← string? comment }
  | _ => none

def redirect? (item : Item) : Option Redirect := do
  match ← parts? ["old_tag_name", "new_tag_name"] item with
  | [some old, some new] => do some ⟨← string? old, ← string? new⟩
  | _ => none

def settings? (fields : Fields) : Option Settings := do
  let d : Settings := {}
  let importTags ← field fields "import_tags_from_config" d.importTags bool?
  let warnOnInvalid ← field fields "warn_on_invalid_tags" d.warnOnInvalid bool?
  let fast ← field fields "fast_replication" d.fast bool?
  let sizeBits ← field fields "num_bits_for_container_size" d.sizeBits number?
  let firstBits ← field fields "net_index_first_bit_segment" d.firstBits number?
  let maxBits ← field fields "net_index_max_bits" d.maxBits number?
  let maxHops ← field fields "max_redirect_hops" d.maxHops number?
  let common ← field fields "commonly_replicated_tags" d.common (list? string?)
  let rows ← field fields "tags" d.rows (list? row?)
  let redirects ← field fields "redirects" d.redirects (list? redirect?)
  some { importTags, warnOnInvalid, fast, sizeBits, firstBits, maxBits, maxHops, common, rows,
         redirects }

def orMalformed {α : Type} : Option α → Except ConfigError α
  | some a => .ok a
  | none => .error .malformed

def orInvalid : Except SettingsFault Unit → Except ConfigError Unit
  | .ok () => .ok ()
  | .error fault => .error (.invalid fault)

def settings (text : String) : Except ConfigError Settings := do
  let s ← orMalformed (parse text >>= settings?)
  orInvalid s.check
  .ok s

def tagList (name text : String) : Except ConfigError TagList := do
  let rows ← orMalformed (parse text >>= fun fields => field fields "tags" [] (list? row?))
  orInvalid (checkRows rows)
  .ok ⟨name, rows⟩

end TagTree.Config
