import TagTree.Registry.Assembly

/-!
# What operations report

Two errors are reported by one function each: that a name is missing by the
lookup that reports, and that a table of code ended early by the registration of
tables. No other operation on a registry reports one of these, and none but that
lookup notes a name as reported.

`Reports` says of a computation that all its events are of a kind, and `Tends`
that moreover no name is noted as reported. Both are kept by sequences, so an
operation has them if its parts do. The events that many functions report are
grouped as common; the two kinds of errors that this module is about are outside
that group, each reported by a single function.

The lemmas are one for each operation, from the following of redirects to the
making of a registry from a bundle, and none of them says how many events there
are or when. What they rule out is enough: a report of a missing name comes from
a lookup that is to report, and a report of a table from the registration of
tables.
-/
namespace TagTree

def Event.isCommon : Event → Bool
  | .tagMissing _ | .nativeBatchFailed _ => false
  | _ => true

namespace Logged
variable {α β : Type} {kind : Event → Prop}

theorem ext {x y : Logged α} (hvalue : x.value = y.value) (hevents : x.events = y.events) :
    x = y := by
  cases x
  cases y
  cases hvalue
  cases hevents
  rfl

/-- All that is reported is of this kind. -/
def Reports (kind : Event → Prop) (x : Logged α) : Prop := ∀ e ∈ x.events, kind e

theorem reports_pure (a : α) : Reports kind (pure a) := nofun

theorem reports_emit {e : Event} (h : kind e) : Reports kind (emit e) := by
  intro e' he
  rwa [List.mem_singleton.mp he]

theorem reports_emitIf (cond : Bool) {e : Event} (h : kind e) : Reports kind (emitIf cond e) := by
  cases cond with
  | false => exact nofun
  | true => exact reports_emit h

theorem Reports.bind {x : Logged α} {f : α → Logged β} (hx : x.Reports kind)
    (hf : (f x.value).Reports kind) : (x >>= f).Reports kind := by
  intro e he
  rcases List.mem_append.mp he with he | he
  · exact hx e he
  · exact hf e he

theorem Reports.mono {kind' : Event → Prop} {x : Logged α} (h : x.Reports kind)
    (himp : ∀ e, kind e → kind' e) : x.Reports kind' := fun e he => himp e (h e he)

end Logged

namespace Registry
open Logged

/-- An operation that reports events of some kind only, and after which the same names count as
reported as before. -/
structure Tends {α : Type} (kind : Event → Prop) (r : Registry) (x : Logged α)
    (registry : α → Registry) : Prop where
  reports : x.Reports kind
  reported : (registry x.value).reported = r.reported

namespace Tends
variable {α β : Type} {kind : Event → Prop} {r : Registry} {registry : α → Registry}
  {registry' : β → Registry}

theorem pure {a : α} (h : (registry a).reported = r.reported) : Tends kind r (pure a) registry :=
  ⟨reports_pure a, h⟩

theorem bind {x : Logged α} {f : α → Logged β} (hx : Tends kind r x registry)
    (hf : Tends kind (registry x.value) (f x.value) registry') :
    Tends kind r (x >>= f) registry' :=
  ⟨hx.reports.bind hf.reports, hf.reported.trans hx.reported⟩

theorem after {x : Logged α} {f : α → Logged β} (hx : x.Reports kind)
    (hf : Tends kind r (f x.value) registry') : Tends kind r (x >>= f) registry' :=
  ⟨hx.bind hf.reports, hf.reported⟩

theorem map {x : Logged α} {f : α → β} (hx : Tends kind r x registry)
    (hf : registry' (f x.value) = registry x.value) :
    Tends kind r (x >>= fun a => Pure.pure (f a)) registry' :=
  hx.bind (.pure (congrArg Registry.reported hf))

theorem ne_tagMissing {x : Logged α} (h : Tends (·.isCommon) r x registry) :
    Tends (fun e => ∀ name, e ≠ .tagMissing name) r x registry := by
  refine ⟨h.reports.mono ?_, h.reported⟩
  rintro _ hcommon name rfl
  cases hcommon

end Tends

section
variable (r : Registry)

theorem follow_reports (start : String) (hops : Nat) (current : String) :
    (r.follow start hops current).Reports (·.isCommon) := by
  induction hops generalizing current with
  | zero => exact (reports_emitIf _ (by rfl)).bind (reports_pure _)
  | succ hops ih =>
      rw [follow]
      split
      · exact reports_pure _
      · split
        · exact reports_pure _
        · exact ih _

theorem lookup_reports (name : String) : (r.lookup name).Reports (·.isCommon) := by
  unfold lookup
  split
  · exact reports_pure _
  · split
    · exact reports_pure _
    · exact (r.follow_reports _ _ _).bind (reports_pure _)

theorem replacements_reports (ts : List Tag) : (r.replacements ts).Reports (·.isCommon) := by
  induction ts with
  | nil => exact reports_pure _
  | cons t ts ih =>
      rw [replacements]
      split
      · refine (r.follow_reports _ _ _).bind ?_
        split
        · exact ih.bind (reports_pure _)
        · exact (reports_emit (by rfl)).bind ih
      · exact ih

theorem checkRedirectsOf_reports (ds : List Redirect) :
    (r.checkRedirectsOf ds).Reports (·.isCommon) := by
  induction ds with
  | nil => exact reports_pure _
  | cons d ds ih =>
      refine Reports.bind ?_ ih
      unfold checkRedirect
      split
      · exact reports_emit rfl
      · refine (r.follow_reports d.old _ _).bind ?_
        split
        · exact reports_pure _
        · exact reports_emit rfl

theorem addRedirect_tends (d : Redirect) :
    Tends (·.isCommon) r (r.addRedirect d) Prod.fst := by
  unfold addRedirect
  split
  · exact .after (reports_emit (by rfl)) (.pure rfl)
  · split
    · exact .after (reports_emit (by rfl)) (.pure rfl)
    · exact .pure rfl

theorem addRedirects_tends (ds : List Redirect) : Tends (·.isCommon) r (r.addRedirects ds) id := by
  induction ds generalizing r with
  | nil => exact .pure rfl
  | cons d ds ih => exact (r.addRedirect_tends d).bind (ih _)

theorem findCommon_reports (names : List String) : (r.findCommon names).Reports (·.isCommon) := by
  induction names with
  | nil => exact reports_pure _
  | cons name names ih =>
      rw [findCommon]
      split
      · exact ih.bind (reports_pure _)
      · exact (reports_emit (by rfl)).bind ih

theorem reindex_tends : Tends (·.isCommon) r r.reindex id := by
  refine .after (r.findCommon_reports _) (.after ?_ (.pure rfl))
  exact (reports_emitIf _ (by rfl)).bind (reports_pure _)

theorem finalize_tends : Tends (·.isCommon) r r.finalize id := by
  unfold finalize
  split
  · exact .pure rfl
  · have hindex := reindex_tends { r with finalized := true }
    exact .after (checkRedirectsOf_reports _ _) ⟨hindex.reports, hindex.reported⟩

theorem tagOfIndex_reports (index : Nat) : (r.tagOfIndex index).Reports (·.isCommon) := by
  unfold tagOfIndex
  split
  · exact reports_pure _
  · split
    · exact reports_pure _
    · exact (reports_emit (by rfl)).bind (reports_pure _)

theorem withSource_reported (name : String) (kind : SourceKind) :
    (r.withSource name kind).reported = r.reported := by
  unfold withSource
  split <;> rfl

theorem insertName_reported {r' : Registry} {name source comment : String} {native : Bool}
    (h : r.insertName name source native comment = .ok r') : r'.reported = r.reported := by
  unfold insertName at h
  split at h <;> cases h
  rfl

theorem loadRows_tends (source : String) (rows : List Row) :
    Tends (·.isCommon) r (r.loadRows source rows) Prod.fst := by
  induction rows generalizing r with
  | nil => exact .pure rfl
  | cons row rows ih =>
      rw [loadRows]
      split
      · rename_i r' hinsert
        have hrest := ih (r'.record source row)
        have hinserted := r.insertName_reported hinsert
        exact ⟨hrest.reports.bind (reports_pure _), hrest.reported.trans hinserted⟩
      · exact .after (reports_emit (by rfl)) (ih r)

theorem load_tends (source : String) (kind : SourceKind) (rows : List Row) :
    Tends (·.isCommon) r (r.load source kind rows) Prod.fst := by
  have hrows := (r.withSource source kind).loadRows_tends source rows
  have hload : Tends (·.isCommon) r ((r.withSource source kind).loadRows source rows) Prod.fst :=
    ⟨hrows.reports, hrows.reported.trans (r.withSource_reported source kind)⟩
  refine hload.bind ?_
  dsimp only
  split
  · exact (reindex_tends _).map rfl
  · exact .pure rfl

theorem addRow_tends (source : String) (row : Row) :
    Tends (·.isCommon) r (r.addRow source row) Prod.fst := (r.load_tends source .dataTable [row]).map rfl

theorem loadLists_tends (lists : List TagList) : Tends (·.isCommon) r (r.loadLists lists) id := by
  induction lists generalizing r with
  | nil => exact .pure rfl
  | cons list lists ih => exact (r.load_tends list.name .tagList list.rows).bind (ih _)

theorem addNative_tends (row : Row) : Tends (·.isCommon) r (r.addNative row) Prod.fst := by
  have hsource := r.withSource_reported Source.native .native
  unfold addNative
  split
  · exact .after (reports_emit (by rfl)) (.pure rfl)
  · dsimp only
    split
    · exact .pure hsource
    · rename_i r' hinsert
      have hinserted := (insertName_reported _ hinsert).trans hsource
      refine .pure ?_
      dsimp only
      split
      · exact hinserted
      · exact hinserted

theorem addNatives_tends (rows : List Row) : Tends (·.isCommon) r (r.addNatives rows) Prod.fst := by
  induction rows generalizing r with
  | nil => exact .pure rfl
  | cons row rows ih =>
      refine (r.addNative_tends row).bind ?_
      split
      · rename_i r' _ hvalue
        rw [hvalue]
        exact ih r'
      · rename_i r' _ hvalue
        rw [hvalue]
        exact .pure rfl

end

theorem ofConfiguration_tends (c : Configuration) :
    Tends (·.isCommon) (empty c.settings) (ofConfiguration c) id := by
  unfold ofConfiguration
  dsimp only
  split
  · exact (load_tends _ _ _ _).bind ((loadLists_tends _ _).bind (addRedirects_tends _ _))
  · have hredirects := addRedirects_tends (empty c.settings) c.settings.redirects
    exact ⟨(reports_pure _).bind hredirects.reports, hredirects.reported⟩

/-- Tables of code report that they ended early, but no missing name. -/
theorem addNativeTables_tends (r : Registry) (tables : List (List Row)) :
    Tends (fun e => ∀ name, e ≠ .tagMissing name) r (r.addNativeTables tables) id := by
  induction tables generalizing r with
  | nil => exact .pure rfl
  | cons rows tables ih =>
      refine (r.addNatives_tends rows).ne_tagMissing.bind ?_
      split
      · rename_i r' _ hvalue
        rw [hvalue]
        exact ih r'
      · rename_i r' _ hvalue
        rw [hvalue]
        exact .after (reports_emit nofun) (ih r')

end Registry
end TagTree
