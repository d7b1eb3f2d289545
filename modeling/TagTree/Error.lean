import TagTree.Name

/-!
# Errors

One type per activity that can fail, with the wording of each cause in one
function. Lookups and predicates never fail: they answer with the invalid tag or
with `false`.

Every type lists the causes of one activity: registering and publishing,
compiling an expression, writing and reading bits, reading the text form,
checking settings and reading configuration, reading and expanding a declaration
block. A cause carries the data that its message shows. Messages are functions
of the cause, so two failures with one cause read the same wherever they come
from.

Arithmetic is different. An `ArithmeticFault` is not an answer of an operation
but the point at which a program in machine words stops, and no message belongs
to it. Two faults of a block stop its expansion in the same way, a word that is
no identifier and a depth that does not fit its byte.

The lemmas at the end are about computations that may fail in general. When two
of them run one after the other, the outcome is that of the first if it fails
and that of the second otherwise; a proof takes a run apart with them, one step
at a time.
-/
namespace TagTree

inductive RegistryError where
  | emptyTagName
  | invalidTagName (name : String) (fault : NameFault)
  | nativeTagsFinalized (name : String)
  | alreadyPublished
deriving DecidableEq, Repr

def RegistryError.message : RegistryError → String
  | .emptyTagName => "tag name is empty"
  | .invalidTagName name fault => s!"invalid tag name '{name}': " ++ fault.message
  | .nativeTagsFinalized name =>
    s!"cannot add native tag '{name}': native tag registration is finished"
  | .alreadyPublished => "the global tag registry is already initialized"

inductive QueryError where
  | tooManyTags (count : Nat)
  | tooManyElements (count : Nat)
  | tooDeep (depth : Nat)
deriving DecidableEq, Repr

def QueryError.message : QueryError → String
  | .tooManyTags count =>
    s!"query references {count} distinct tags, at most 255 are supported"
  | .tooManyElements count => s!"query node has {count} elements, at most 255 are supported"
  | .tooDeep depth => s!"query nesting depth {depth} exceeds the supported maximum"

inductive WireError where
  | overflow (requested remaining : Nat)
  | nameTooLong (length : Nat)
  | invalidUtf8
deriving DecidableEq, Repr

def WireError.message : WireError → String
  | .overflow requested remaining =>
    s!"read of {requested} bits past the end of the stream ({remaining} bits left)"
  | .nameTooLong length => s!"tag name of {length} bytes is too long to replicate"
  | .invalidUtf8 => "replicated tag name is not valid UTF-8"

/-- What machine arithmetic cannot do. A program stops at it and gives no answer. -/
inductive ArithmeticFault where
  /-- Shift a word of `bits` bits by `places`. -/
  | shift (bits places : Nat)
  /-- Take more away than there is. -/
  | below (minuend subtrahend : Nat)
  /-- Keep a value in a word of `bits` bits. -/
  | wide (bits value : Nat)
  /-- Take an entry that is not there. -/
  | index (size position : Nat)
deriving DecidableEq, Repr

inductive TextError where
  | expected (what : String) (offset : Nat)
  | unterminatedString (offset : Nat)
  | trailingInput (offset : Nat)
  | unknownTag (name : String)
deriving DecidableEq, Repr

def TextError.message : TextError → String
  | .expected what offset => s!"expected {what} at offset {offset}"
  | .unterminatedString offset => s!"unterminated string starting at offset {offset}"
  | .trailingInput offset => s!"unexpected trailing input at offset {offset}"
  | .unknownTag name => s!"unknown tag '{name}'"

/-- What is wrong with settings or a tag list that could be read. -/
inductive SettingsFault where
  | widthOutOfRange (field : String) (value : Nat)
  | noHops
  | badName (name : String) (fault : NameFault)
  | selfRedirect (name : String)
  | repeatedRedirect (name : String)
deriving DecidableEq, Repr

def SettingsFault.message : SettingsFault → String
  | .widthOutOfRange field value => s!"{field} must be in 1..=16, got {value}"
  | .noHops => "max_redirect_hops must be at least 1"
  | .badName name fault => s!"invalid tag name '{name}': " ++ fault.message
  | .selfRedirect name => s!"redirect '{name}' points at itself"
  | .repeatedRedirect name => s!"duplicate redirect for '{name}'"

/-- Why configuration is not loaded: it cannot be read, is not well-formed, or breaks a rule. -/
inductive ConfigError where
  | unreadable
  | malformed
  | invalid (fault : SettingsFault)
deriving DecidableEq, Repr

inductive BlockFault where
  | duplicateTag (name : String)
  | unknownAttribute (key : String)
  | noteExpected
  | redirectWithChildren (name : String)
  | selfRedirect
  | undeclaredTarget (target : String)
  | notAWord (segment : String)
  | tooDeep
deriving DecidableEq, Repr

def BlockFault.message : BlockFault → String
  | .duplicateTag name => s!"duplicate tag `{name}`"
  | .unknownAttribute key =>
    s!"unknown attribute `{key}`, expected `comment`, `redirect` or `deprecated`"
  | .noteExpected => "expected `note = \"...\"`"
  | .redirectWithChildren name =>
    s!"`{name}` has #[redirect] but also has children; redirects must be leaf nodes"
  | .selfRedirect => "a tag cannot redirect to itself"
  | .undeclaredTarget target => s!"redirect target `{target}` is not declared in this block"
  | .notAWord segment => s!"\"{segment}\" is not a valid Ident"
  | .tooDeep => "attempt to add with overflow"

inductive BlockError where
  | malformed
  | invalid (fault : BlockFault)
deriving DecidableEq, Repr

section
variable {ε α β : Type}

theorem ok_bind (a : α) (f : α → Except ε β) : (Except.ok a >>= f) = f a := rfl

theorem error_bind (e : ε) (f : α → Except ε β) : (Except.error e >>= f) = .error e := rfl

theorem pure_eq_ok {a b : α} : (pure a : Except ε α) = .ok b ↔ b = a :=
  ⟨fun h => (Except.ok.inj h).symm, fun h => h ▸ rfl⟩

theorem bind_eq_ok {x : Except ε α} {f : α → Except ε β} {b : β} :
    x >>= f = .ok b ↔ ∃ a, x = .ok a ∧ f a = .ok b := by
  cases x with
  | error e => simp [error_bind]
  | ok a => simp [ok_bind]

theorem bind_eq_error {x : Except ε α} {f : α → Except ε β} {e : ε} :
    x >>= f = .error e ↔ x = .error e ∨ ∃ a, x = .ok a ∧ f a = .error e := by
  cases x with
  | error e => simp [error_bind]
  | ok a => simp [ok_bind]

theorem map_ok_iff {x : Except ε α} {f : α → β} {b : β} :
    x.map f = .ok b ↔ ∃ a, x = .ok a ∧ f a = b := by
  cases x with
  | error e => simp [Except.map]
  | ok a => simp [Except.map]

end

end TagTree
