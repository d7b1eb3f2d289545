import TagTree.Proofs.Registry.Configured
import TagTree.Proofs.Registry.Reporting

/-!
# Bundles

The tables of a bundle are registered one after the other. A table ends at its
first definition that is refused, which is reported; the definitions behind that
one are not tried, whether they are valid or not. Neither the other tables nor
what the configuration brought along are affected.

The claims of a table are its definitions up to the first that is refused, and
so are the names that it registers; both are computed from the table, since
before the registry is finalized whether code is refused depends on the name
alone. The induction over the tables carries the flag and appends the claims of
one table after the other.

The report of a table that ended early is told apart from all other reports by
the kind of its event, and nothing else that happens to a bundle reports such an
event. So the events of this kind are exactly the tables with a refused
definition, in their order, each with the fault of that definition.
-/
namespace TagTree

/-- Why a table of code ended early, if the event tells that one did. -/
def Event.tableFailure? : Event → Option RegistryError
  | .nativeBatchFailed cause => some cause
  | _ => none

namespace Registry

/-- The claims of tables of code, each up to its first definition that is refused. -/
def tableClaims (tables : List (List Row)) : List Claim :=
  tables.flatMap fun rows => (nativeRows false rows).map .coded

def refusal? (rows : List Row) : Option RegistryError :=
  rows.findSome? fun row => nameError? row.tag

theorem addNative_events {r : Registry} (hf : r.finalized = false) (row : Row) :
    (r.addNative row).events = [] := by
  rw [addNative, if_neg (by simp [hf])]
  dsimp only
  split <;> rfl

theorem addNatives_events {r : Registry} (hf : r.finalized = false) (rows : List Row) :
    (r.addNatives rows).events = [] := by
  induction rows generalizing r with
  | nil => rfl
  | cons row rows ih =>
      have hflag := (SameButRows.addNative r row).finalized.trans hf
      rw [addNatives, Logged.events_bind, addNative_events hf, List.nil_append]
      cases hout : (r.addNative row).value with
      | mk r₁ answer =>
      rw [hout] at hflag
      cases answer with
      | ok tag => exact ih hflag
      | error cause => rfl

theorem addNativeTables_cons (r : Registry) (rows : List Row) (tables : List (List Row)) :
    (r.addNativeTables (rows :: tables)).value =
      ((r.addNatives rows).value.1.addNativeTables tables).value := by
  rw [addNativeTables, Logged.value_bind]
  cases (r.addNatives rows).value with
  | mk r₁ answer => cases answer <;> rfl

/-- One report for each table that ends early, and no other. -/
theorem addNativeTables_events {r : Registry} (hf : r.finalized = false) (tables : List (List Row)) :
    (r.addNativeTables tables).events =
      tables.filterMap fun rows => (refusal? rows).map .nativeBatchFailed := by
  induction tables generalizing r with
  | nil => rfl
  | cons rows tables ih =>
      have hflag := (SameButRows.addNatives hf rows).finalized.trans hf
      have hanswer : (r.addNatives rows).value.2 = _ := addNatives_answer hf rows
      rw [addNativeTables, Logged.events_bind, addNatives_events hf, List.nil_append,
        List.filterMap_cons, refusal?]
      cases hout : (r.addNatives rows).value with
      | mk r₁ answer =>
      rw [hout] at hflag hanswer
      dsimp only at hflag hanswer
      subst hanswer
      cases rows.findSome? fun row => nameError? row.tag with
      | none => exact ih hflag
      | some cause => exact congrArg (Event.nativeBatchFailed cause :: ·) (ih hflag)

theorem addNativeTables_grows {r : Registry} (h : r.Consistent) (hf : r.finalized = false)
    (tables : List (List Row)) :
    Grows r (r.addNativeTables tables).value (tables.flatMap (nativeNames false)) := by
  induction tables generalizing r with
  | nil => exact .refl h
  | cons rows tables ih =>
      obtain ⟨hstep, hflag⟩ := addNatives_grows h rows
      rw [hf] at hstep hflag
      rw [addNativeTables_cons]
      exact hstep.trans (ih hstep.consistent hflag)

theorem Claimed.addNativeTables {claims : List Claim} {r : Registry} (h : Claimed claims r.tree)
    (hf : r.finalized = false) (tables : List (List Row)) :
    Claimed (claims ++ tableClaims tables) (r.addNativeTables tables).value.tree := by
  induction tables generalizing r claims with
  | nil => exact (List.append_nil claims).symm ▸ h
  | cons rows tables ih =>
      have hstep := h.addNatives rows
      have hflag := (SameButRows.addNatives hf rows).finalized.trans hf
      rw [hf] at hstep
      have hrest := ih hstep hflag
      rw [addNativeTables_cons, tableClaims, List.flatMap_cons, ← List.append_assoc]
      exact hrest

def Silent {α : Type} (x : Logged α) : Prop := ∀ e ∈ x.events, e.tableFailure? = none

theorem silent_of_reports {α : Type} {x : Logged α} (h : x.Reports (·.isCommon)) : Silent x := by
  intro e he
  have hcommon := h e he
  cases e with
  | nativeBatchFailed cause => cases hcommon
  | _ => rfl

end Registry

namespace Bundle
open Registry

def claims (b : Bundle) : List Claim := configuredClaims b.configuration ++ tableClaims b.natives

theorem map_tag_claims (b : Bundle) : b.claims.map (·.row.tag) =
    configuredNames b.configuration ++ b.natives.flatMap (nativeNames false) := by
  rw [claims, List.map_append, map_tag_configuredClaims, tableClaims, List.map_flatMap]
  simp only [map_tag_nativeRows]

theorem registry_grows (b : Bundle) : Grows (empty b.configuration.settings) b.registry.value
    (configuredNames b.configuration ++ b.natives.flatMap (nativeNames false)) := by
  have hloaded := ofConfiguration_grows b.configuration
  have hflag := ofConfiguration_finalized b.configuration
  have htables := hloaded.trans (addNativeTables_grows hloaded.consistent hflag b.natives)
  have hredirected := htables.trans (addRedirects_grows htables.consistent b.redirects.flatten)
  have hall := hredirected.trans (finalize_grows hredirected.consistent)
  rw [List.append_nil, List.append_nil] at hall
  exact hall

theorem registry_claimed (b : Bundle) : Claimed b.claims b.registry.value.tree := by
  have hflag := ofConfiguration_finalized b.configuration
  have htables := (ofConfiguration_claimed b.configuration).addNativeTables hflag b.natives
  exact (htables.addRedirects b.redirects.flatten).finalize

theorem contains_iff (b : Bundle) (m : String) :
    b.registry.value.contains m ↔ ∃ c ∈ b.claims, Name.DottedPrefix m c.row.tag := by
  have hgrows := b.registry_grows
  rw [contains, hgrows.consistent.names]
  simp only [hgrows.logged, ← map_tag_claims]
  simp [logged, empty]

theorem registry_events (b : Bundle) :
    b.registry.events.filterMap Event.tableFailure? = b.natives.filterMap refusal? := by
  have hsilent : ∀ {α : Type} {x : Logged α}, x.Reports (·.isCommon) →
      x.events.filterMap Event.tableFailure? = [] :=
    fun h => List.filterMap_eq_nil_iff.mpr (silent_of_reports h)
  unfold registry
  rw [Logged.events_bind, Logged.events_bind, Logged.events_bind, List.filterMap_append,
    List.filterMap_append, List.filterMap_append, hsilent (ofConfiguration_tends _).reports,
    hsilent (addRedirects_tends _ _).reports, hsilent (finalize_tends _).reports,
    addNativeTables_events (ofConfiguration_finalized _), List.filterMap_filterMap, List.nil_append,
    List.append_nil, List.append_nil]
  congr 1
  funext rows
  cases refusal? rows <;> rfl

/-- What a bundle makes of its tables. -/
structure Registers (b : Bundle) : Prop where
  finalized : b.registry.value.finalized
  registered : ∀ m, b.registry.value.contains m ↔
    ∃ c ∈ b.claims, Name.DottedPrefix m c.row.tag
  entry : ∀ t, b.registry.value.contains t.name →
    b.registry.value.entry? t = some (claimedEntry (claimsOn b.claims t.name))
  coded : ∀ before row after, before ++ row :: after ∈ b.natives →
    (∀ x ∈ before, Name.Valid x.tag) → Name.Valid row.tag →
      (b.registry.value.entry? ⟨row.tag⟩).bind (·.source) = some Source.native
  reported : b.registry.events.filterMap Event.tableFailure? = b.natives.filterMap refusal?

theorem coded_mem_claims {b : Bundle} {before after : List Row} {row : Row}
    (htable : before ++ row :: after ∈ b.natives) (hbefore : ∀ x ∈ before, Name.Valid x.tag)
    (hrow : Name.Valid row.tag) : .coded row ∈ claimsOn b.claims row.tag := by
  have hmem : row ∈ nativeRows false (before ++ row :: after) := by
    rw [nativeRows, if_neg Bool.false_ne_true, List.takeWhile_append_of_pos (by simpa using hbefore)]
    simp [hrow]
  have hclaim : .coded row ∈ b.claims := List.mem_append_right _
    (List.mem_flatMap.mpr ⟨_, htable, List.mem_map_of_mem hmem⟩)
  exact List.mem_filter.mpr ⟨hclaim, beq_self_eq_true _⟩

/-- A bundle makes a finalized registry with the tags of the configuration and, of each table of code,
those up to its first definition that is refused. Each table with such a definition is reported once. -/
theorem registers (b : Bundle) : b.Registers := by
  constructor
  case finalized => exact finalize_finalized _
  case registered => exact b.contains_iff
  case entry =>
      intro t ht
      rw [entry?_eq, if_pos ht, b.registry_claimed.entries]
  case coded =>
      intro before row after htable hbefore hrow
      have hcoded : (claimsOn b.claims row.tag).any (·.isCoded) :=
        List.any_eq_true.mpr ⟨_, coded_mem_claims htable hbefore hrow, rfl⟩
      rw [bind_source, b.registry_claimed.entries]
      exact if_pos hcoded
  case reported => exact b.registry_events

/-- A valid definition behind one that is refused is not registered, and the next table is. -/
theorem registers_cut :
    let b : Bundle :=
      { configuration := ⟨{}, []⟩, natives := [[⟨"A..B", ""⟩, ⟨"After", ""⟩], [⟨"Other", ""⟩]] }
    Name.Valid "After" ∧ b.registry.value.finalized ∧ ¬ b.registry.value.contains "After" ∧
      b.registry.value.contains "Other" ∧
      b.registry.events = [.nativeBatchFailed (.invalidTagName "A..B" .emptySegment)] := by
  decide +kernel

end Bundle
end TagTree
