import TagTree.Proofs.Registry.Bundled
import TagTree.Proofs.Registry.Calls
import TagTree.Proofs.Registry.Redirecting

/-!
# Missing names are reported once

A registry keeps the names that it has reported, and no call takes one out but a
rebuild. So of all the moments of a run the first at which a name is sought and
missed reports it, and none before or after, no matter what is registered or
redirected in between.

A moment is said to lead from the registry that it meets to another one, with at
most one report: a report is made exactly if the name is sought, missed and not
noted yet, and then it is noted. Everything that is not a lookup leads to a
registry with the same notes. A row of moments that lead on from one another is
what a call and a run come to, and the counting is done on such rows.

In a row the names that are noted in the end are those noted at the start and
those missed on the way, so a second miss meets a note. The making of a registry
notes and reports no missing name, and a rebuild is the only call that takes
notes away, which is why sessions without one are considered.
-/
namespace TagTree.Registry

def Misses (r : Registry) (name : String) : Prop :=
  r.find? name = none ∧ (r.resolve name).value = none

instance (r : Registry) (name : String) : Decidable (r.Misses name) :=
  inferInstanceAs (Decidable (_ ∧ _))

def Seekable (name : String) : Prop := name ≠ "" ∧ name ≠ Name.none

instance (name : String) : Decidable (Seekable name) := inferInstanceAs (Decidable (_ ∧ _))

namespace Moment

/-- A lookup that is to report seeks the name and misses it. -/
def Misses (m : Moment) (name : String) : Prop := m.sought = some name ∧ m.registry.Misses name

instance (m : Moment) (name : String) : Decidable (m.Misses name) :=
  inferInstanceAs (Decidable (_ ∧ _))

def Due (m : Moment) (name : String) : Prop :=
  m.Misses name ∧ Seekable name ∧ name ∉ m.registry.reported

instance (m : Moment) (name : String) : Decidable (m.Due name) :=
  inferInstanceAs (Decidable (_ ∧ _))

/-- What is reported at a moment and noted in the registry after it. -/
structure Leads (m : Moment) (after : Registry) : Prop where
  consistent : after.Consistent
  reports : ∀ name, m.events.count (.tagMissing name) = if m.Due name then 1 else 0
  reported : ∀ name, name ∈ after.reported ↔ name ∈ m.registry.reported ∨ m.Due name

theorem Leads.mem_events {m : Moment} {after : Registry} (h : m.Leads after) {name : String} :
    .tagMissing name ∈ m.events ↔ m.Due name := by
  rw [← List.count_pos_iff, h.reports]
  split_ifs with hdue
  · exact iff_of_true Nat.one_pos hdue
  · exact iff_of_false (Nat.lt_irrefl 0) hdue

end Moment

/-- Moments of which each meets the registry that the one before leaves. -/
inductive Passes : Registry → List Moment → Registry → Prop
  | nil {r : Registry} : Passes r [] r
  | cons {m : Moment} {ms : List Moment} {next last : Registry} (step : m.Leads next)
      (rest : Passes next ms last) : Passes m.registry (m :: ms) last

namespace Passes
variable {r mid last : Registry} {ms ms' : List Moment}

theorem append (h : Passes r ms mid) (h' : Passes mid ms' last) : Passes r (ms ++ ms') last := by
  induction h with
  | nil => exact h'
  | cons step rest ih => exact .cons step (ih h')

theorem consistent (h : Passes r ms last) (hr : r.Consistent) : last.Consistent := by
  induction h with
  | nil => exact hr
  | cons step rest ih => exact ih step.consistent

theorem split (h : Passes r (ms ++ ms') last) : ∃ mid, Passes r ms mid ∧ Passes mid ms' last := by
  induction ms generalizing r with
  | nil => exact ⟨r, .nil, h⟩
  | cons m ms ih =>
      cases h with
      | cons step rest =>
          obtain ⟨mid, hms, hms'⟩ := ih rest
          exact ⟨mid, .cons step hms, hms'⟩

/-- The names that are noted afterwards are those missed on the way. -/
theorem mem_reported (h : Passes r ms last) (name : String) : name ∈ last.reported ↔
    name ∈ r.reported ∨ Seekable name ∧ ∃ m ∈ ms, m.Misses name := by
  induction h with
  | nil => simp
  | @cons m ms next last step rest ih =>
      rw [ih, step.reported, Moment.Due, List.exists_mem_cons_iff]
      tauto

/-- A name is reported once if it is missed on the way and was not noted before, and else never. -/
theorem count_eq (h : Passes r ms last) (name : String) :
    (ms.flatMap (·.events)).count (.tagMissing name) =
      if (Seekable name ∧ ∃ m ∈ ms, m.Misses name) ∧ name ∉ r.reported then 1 else 0 := by
  induction h with
  | nil => simp
  | @cons m ms next last step rest ih =>
      rw [List.flatMap_cons, List.count_append, ih, step.reports]
      -- A name that is due is noted now, so no later moment reports it.
      by_cases hdue : m.Due name
      · have hnoted : name ∈ next.reported := (step.reported name).mpr (.inr hdue)
        obtain ⟨hmisses, hname, hnew⟩ := hdue
        rw [if_pos ⟨hmisses, hname, hnew⟩, if_neg (fun hlater => hlater.2 hnoted),
          if_pos ⟨⟨hname, m, List.mem_cons_self, hmisses⟩, hnew⟩]
      · have hnoted : name ∈ next.reported ↔ name ∈ m.registry.reported := by
          rw [step.reported, or_iff_left hdue]
        rw [if_neg hdue, Nat.zero_add]
        refine if_congr ?_ rfl rfl
        rw [hnoted, List.exists_mem_cons_iff]
        unfold Moment.Due at hdue
        tauto

theorem mem_events {before after : List Moment} {m : Moment}
    (h : Passes r (before ++ m :: after) last) {name : String} (hnew : name ∉ r.reported) :
    .tagMissing name ∈ m.events ↔
      Seekable name ∧ m.Misses name ∧ ∀ m' ∈ before, ¬ m'.Misses name := by
  obtain ⟨mid, hbefore, hrest⟩ := h.split
  cases hrest with
  | cons step rest =>
      rw [step.mem_events, Moment.Due, hbefore.mem_reported]
      simp only [hnew, false_or, not_and, not_exists]
      tauto

end Passes

section
variable {r : Registry} (h : r.Consistent)
include h

theorem Consistent.lookup_isValid {name : String} (hname : Seekable name) :
    (r.lookup name).value.isValid = false ↔ r.Misses name := by
  rw [lookup, if_neg (not_or.mpr hname), Misses]
  cases hfind : r.find? name with
  | some t => simp [h.isValid_of_find? hfind]
  | none =>
      rw [Logged.value_bind]
      cases hresolve : (r.resolve name).value with
      | some t => simp [h.isValid_of_resolve hresolve]
      | none => simp [Tag.invalid, Tag.isValid]

theorem Consistent.isReportable_iff (name : String) :
    r.isReportable name (r.lookup name).value ↔
      r.Misses name ∧ Seekable name ∧ name ∉ r.reported := by
  simp only [isReportable, Bool.and_eq_true, Bool.not_eq_true', bne_iff_ne,
    List.contains_eq_mem, decide_eq_false_iff_not]
  constructor
  · rintro ⟨⟨⟨hinvalid, hempty⟩, hnone⟩, hnew⟩
    exact ⟨(h.lookup_isValid ⟨hempty, hnone⟩).mp hinvalid, ⟨hempty, hnone⟩, hnew⟩
  · rintro ⟨hmisses, hname, hnew⟩
    exact ⟨⟨⟨(h.lookup_isValid hname).mpr hmisses, hname.1⟩, hname.2⟩, hnew⟩

end

theorem request_events (r : Registry) (name : String) :
    (r.request name).events = (r.lookup name).events ++
      if r.isReportable name (r.lookup name).value then [.tagMissing name] else [] := by
  rw [request, Logged.events_bind]
  split <;> rfl

theorem request_reported (r : Registry) (name : String) :
    (r.request name).value.1.reported =
      if r.isReportable name (r.lookup name).value then name :: r.reported else r.reported := by
  rw [request, Logged.value_bind]
  split <;> rfl

theorem Tends.leads {α : Type} {r : Registry} {x : Logged α} {registry : α → Registry}
    (hx : Tends (·.isCommon) r x registry) (hafter : (registry x.value).Consistent) :
    Moment.Leads ⟨r, none, x.events⟩ (registry x.value) := by
  constructor
  case consistent => exact hafter
  case reports =>
      intro name
      have hnone : ¬ Moment.Due ⟨r, none, x.events⟩ name := fun hdue => nomatch hdue.1.1
      rw [if_neg hnone]
      exact List.count_eq_zero.mpr fun hmem => nomatch hx.reports _ hmem
  case reported =>
      intro name
      rw [hx.reported]
      exact (or_iff_left fun hdue => nomatch hdue.1.1).symm

theorem quiet_leads {α : Type} {r : Registry} (h : r.Consistent) {x : Logged α}
    (hx : x.Reports (·.isCommon)) : Moment.Leads ⟨r, none, x.events⟩ r :=
  have htends : Tends (·.isCommon) r x fun _ => r := ⟨hx, rfl⟩
  htends.leads h

theorem request_leads {r : Registry} (h : r.Consistent) (name : String) :
    Moment.Leads ⟨r, some name, (r.request name).events⟩ (r.request name).value.1 := by
  have hdue : ∀ other, Moment.Due ⟨r, some name, (r.request name).events⟩ other ↔
      other = name ∧ r.isReportable name (r.lookup name).value := by
    intro other
    rw [h.isReportable_iff, Moment.Due, Moment.Misses, Option.some_inj]
    constructor
    · rintro ⟨⟨rfl, hmisses⟩, hrest⟩
      exact ⟨rfl, hmisses, hrest⟩
    · rintro ⟨rfl, hmisses, hrest⟩
      exact ⟨⟨rfl, hmisses⟩, hrest⟩
  constructor
  case consistent => exact (request_grows h name).consistent
  case reports =>
      intro other
      have hlookup : (r.lookup name).events.count (.tagMissing other) = 0 :=
        List.count_eq_zero.mpr fun hmem => nomatch r.lookup_reports name _ hmem
      rw [if_congr (hdue other) rfl rfl]
      dsimp only
      rw [request_events, List.count_append, hlookup, Nat.zero_add]
      by_cases hreport : r.isReportable name (r.lookup name).value
      · rcases eq_or_ne other name with rfl | hne
        · simp [hreport]
        · simp [hreport, hne, hne.symm]
      · simp [hreport]
  case reported =>
      intro other
      rw [request_reported, hdue]
      by_cases hreport : r.isReportable name (r.lookup name).value
      · simp [hreport, or_comm]
      · simp [hreport]

theorem requestIf_leads {r : Registry} (h : r.Consistent) (report : Bool) (name : String) :
    Moment.Leads ⟨r, soughtIf report name, (r.requestIf report name).events⟩
      (r.requestIf report name).value.1 := by
  cases report with
  | true => exact request_leads h name
  | false =>
      -- The lookup may still report a chain of redirects that it gave up.
      have hquiet : Tends (·.isCommon) r (r.requestIf false name) Prod.fst :=
        .after (r.lookup_reports name) (.pure rfl)
      exact hquiet.leads h

theorem receive_leads {r : Registry} (h : r.Consistent) (field : WireTag) :
    Moment.Leads ⟨r, r.soughtBy field, (r.receive field).events⟩ (r.receive field).value.1 := by
  cases field with
  | index n =>
      have hquiet : Tends (·.isCommon) r (r.receive (.index n)) Prod.fst := by
        unfold receive
        dsimp only
        split
        · exact .after (Logged.reports_emit (by rfl)) (.pure rfl)
        · exact .after (r.tagOfIndex_reports n) (.pure rfl)
      have hsame : (r.receive (.index n)).value.1 = r := by
        unfold receive
        dsimp only
        split <;> rfl
      exact hquiet.leads (by rw [hsame]; exact h)
  | name s =>
      unfold receive soughtBy
      dsimp only
      split
      · exact quiet_leads h (Logged.reports_pure (r, Tag.invalid))
      · exact requestIf_leads h _ s

section
variable {α β : Type} {sought : Registry → α → Option String}
  {act : Registry → α → Logged (Registry × β)}

theorem inTurn_passes (hact : ∀ r a, r.Consistent →
      Moment.Leads ⟨r, sought r a, (act r a).events⟩ (act r a).value.1)
    {r : Registry} (h : r.Consistent) (as : List α) :
    Passes r (momentsInTurn sought act r as) (inTurn act r as).value.1 := by
  induction as generalizing r with
  | nil => exact .nil
  | cons a as ih =>
      have hfirst := hact r a h
      exact .cons hfirst (ih hfirst.consistent)

end

theorem Moment.Leads.passes {m : Moment} {after : Registry} (h : m.Leads after) :
    Passes m.registry [m] after := .cons h .nil

theorem restore_passes {r : Registry} (h : r.Consistent) (s : SavedQuery) :
    Passes r (r.restoreMoments s) ((Call.restore s).apply r).value := by
  have hlooked := inTurn_passes (fun r' name hr => requestIf_leads hr r.settings.warnOnInvalid name)
    h s.dictionary
  rw [← requestAllIf_eq] at hlooked
  exact hlooked.append (quiet_leads (hlooked.consistent h) (Query.ofStream_reports _ _)).passes

theorem Operation.apply_tends (r : Registry) {op : Operation} (hrebuild : op ≠ .rebuild)
    (hrequest : ∀ name, op ≠ .request name) : Tends (·.isCommon) r (op.apply r) id := by
  cases op with
  | load source kind rows => exact (r.load_tends source kind rows).map rfl
  | addRow source row => exact (r.addRow_tends source row).map rfl
  | addNative row => exact (r.addNative_tends row).map rfl
  | addNatives rows => exact (r.addNatives_tends rows).map rfl
  | addRedirect redirect => exact (r.addRedirect_tends redirect).map rfl
  | addRedirects redirects => exact r.addRedirects_tends redirects
  | finalize => exact r.finalize_tends
  | rebuild => exact absurd rfl hrebuild
  | request name => exact absurd rfl (hrequest name)

theorem aside_passes {α : Type} {r : Registry} (h : r.Consistent) {x : Logged α}
    (hx : x.Reports (·.isCommon)) : Passes r [⟨r, none, (r.aside x).events⟩] (r.aside x).value :=
  (quiet_leads h (x := r.aside x) (hx.bind (Logged.reports_pure r))).passes

theorem Call.passes {r : Registry} (h : r.Consistent) {call : Call}
    (hrebuild : call ≠ .operate .rebuild) : Passes r (call.moments r) (call.apply r).value := by
  cases call with
  | operate op =>
      by_cases hrequest : ∃ name, op = .request name
      · obtain ⟨name, rfl⟩ := hrequest
        exact (request_leads h name).passes
      · have htends := op.apply_tends r (fun hop => hrebuild (hop ▸ rfl))
          (fun name hop => hrequest ⟨name, hop⟩)
        have hleads := (htends.leads (op.apply_grows h).consistent).passes
        cases op with
        | request name => exact absurd ⟨name, rfl⟩ hrequest
        | _ => exact hleads
  | request report name => exact (requestIf_leads h report name).passes
  | resolve name => exact aside_passes h (r.follow_reports _ _ _)
  | redirectContainer c => exact aside_passes h ((r.replacements_reports _).bind (Logged.reports_pure _))
  | tagOfIndex index => exact aside_passes h (r.tagOfIndex_reports index)
  | sendContainer w c => exact aside_passes h (r.sendContainer_reports w c)
  | readTag c =>
      rw [readTag_apply]
      exact inTurn_passes (fun _ field hr => receive_leads hr field) h _
  | readContainer c =>
      rw [readContainer_apply]
      exact inTurn_passes (fun _ field hr => receive_leads hr field) h _
  | tagOfText text => exact aside_passes h (r.tagOfText_reports text)
  | containerOfText text => exact aside_passes h (r.containerOfText_reports text)
  | containerOfNames names => exact aside_passes h (r.containerOfNames_reports names)
  | restore s => exact restore_passes h s
  | ofStream dictionary stream => exact aside_passes h (Query.ofStream_reports dictionary stream)
  | holds q c => exact aside_passes h (q.holds_reports c)
  | expr q => exact aside_passes h q.expr_reports
  | replaceTags q c => exact aside_passes h (q.replaceTags_reports c)
  | replaceTag q t => exact aside_passes h (q.replaceTag_reports t)
  | addTag e t => exact aside_passes h (e.addTag_reports t)
  | addTags e c => exact aside_passes h (e.addTags_reports c)
  | addExpr e sub => exact aside_passes h (e.addExpr_reports sub)

theorem perform_passes {r : Registry} (h : r.Consistent) {calls : List Call}
    (hrebuild : .operate .rebuild ∉ calls) :
    Passes r (r.momentsOf calls) (r.perform calls).value := by
  induction calls generalizing r with
  | nil => exact .nil
  | cons call calls ih =>
      have hcall := Call.passes h fun heq => hrebuild (heq ▸ List.mem_cons_self)
      exact hcall.append (ih (hcall.consistent h) (mt (List.mem_cons_of_mem _) hrebuild))

theorem Maker.consistent (maker : Maker) : maker.registry.value.Consistent := by
  cases maker with
  | origin o =>
      obtain ⟨_, hgrows⟩ := o.registry_grows
      exact hgrows.consistent
  | bundle b => exact b.registry_grows.consistent

theorem Maker.tends (maker : Maker) : ∃ settings,
    Tends (fun e => ∀ name, e ≠ .tagMissing name) (empty settings) maker.registry id := by
  cases maker with
  | origin o =>
      cases o with
      | empty settings => exact ⟨settings, .pure rfl⟩
      | ofSettings settings => exact ⟨settings, (ofConfiguration_tends ⟨settings, []⟩).ne_tagMissing⟩
      | ofConfiguration c => exact ⟨c.settings, (ofConfiguration_tends c).ne_tagMissing⟩
  | bundle b =>
      exact ⟨b.configuration.settings, (ofConfiguration_tends b.configuration).ne_tagMissing.bind
        ((addNativeTables_tends _ _).bind ((addRedirects_tends _ _).ne_tagMissing.bind
          (finalize_tends _).ne_tagMissing))⟩

/-- How a registry is made and the calls that are made with it. -/
structure Session where
  maker : Maker
  calls : List Call

namespace Session

def events (s : Session) : List Event :=
  Logged.events (do (← s.maker.registry).perform s.calls)

def moments (s : Session) : List Moment := s.maker.registry.value.momentsOf s.calls

/-- How the missing names of a session are reported. -/
structure ReportsOnce (s : Session) : Prop where
  /-- What is reported is what the making of the registry and each moment report. -/
  events : s.events = s.maker.registry.events ++ s.moments.flatMap (·.events)
  making : ∀ name, .tagMissing name ∉ s.maker.registry.events
  once : ∀ name, name ≠ "" → name ≠ Name.none → (∃ m ∈ s.moments, m.Misses name) →
    s.events.count (.tagMissing name) = 1
  never : ∀ name, (∀ m ∈ s.moments, ¬ m.Misses name) → .tagMissing name ∉ s.events
  first : ∀ name before m after, name ≠ "" → name ≠ Name.none →
    s.moments = before ++ m :: after →
      (.tagMissing name ∈ m.events ↔ m.Misses name ∧ ∀ m' ∈ before, ¬ m'.Misses name)
  empty : .tagMissing "" ∉ s.events
  reserved : .tagMissing Name.none ∉ s.events

theorem events_eq (s : Session) :
    s.events = s.maker.registry.events ++ s.moments.flatMap (·.events) := by
  rw [Session.events, Logged.events_bind, perform_events]
  rfl

/-- In a session without a rebuild, each name that a reporting lookup misses is reported once, by the
first lookup that misses it, and no other name is reported as missing. -/
theorem reportsOnce (s : Session) (hrebuild : .operate .rebuild ∉ s.calls) : s.ReportsOnce := by
  obtain ⟨settings, hmade⟩ := s.maker.tends
  have hpasses := perform_passes s.maker.consistent hrebuild
  have hnew : ∀ name, name ∉ s.maker.registry.value.reported := by
    intro name
    rw [show s.maker.registry.value.reported = [] from hmade.reported]
    exact List.not_mem_nil
  have hmaking : ∀ name, .tagMissing name ∉ s.maker.registry.events :=
    fun name hmem => hmade.reports _ hmem name rfl
  have hcount : ∀ name, s.events.count (.tagMissing name) =
      if Seekable name ∧ ∃ m ∈ s.moments, m.Misses name then 1 else 0 := by
    intro name
    rw [s.events_eq, List.count_append, List.count_eq_zero.mpr (hmaking name), Nat.zero_add, moments,
      hpasses.count_eq]
    exact if_congr (and_iff_left (hnew name)) rfl rfl
  have hsilent : ∀ name, ¬ (Seekable name ∧ ∃ m ∈ s.moments, m.Misses name) →
      .tagMissing name ∉ s.events := by
    intro name hnot
    rw [← List.count_eq_zero, hcount, if_neg hnot]
  constructor
  case events => exact s.events_eq
  case making => exact hmaking
  case once =>
      intro name hempty hnone hmisses
      rw [hcount, if_pos ⟨⟨hempty, hnone⟩, hmisses⟩]
  case never =>
      intro name hmisses
      exact hsilent name fun ⟨_, m, hm, hmiss⟩ => hmisses m hm hmiss
  case first =>
      intro name before m after hempty hnone hmoments
      rw [moments] at hmoments
      rw [hmoments] at hpasses
      rw [hpasses.mem_events (hnew name)]
      exact and_iff_right ⟨hempty, hnone⟩
  case empty => exact hsilent "" fun h => h.1.1 rfl
  case reserved => exact hsilent Name.none fun h => h.1.2 rfl

/-- A name is missed by a request, a restored query and a received tag, and is registered and redirected in
between. -/
theorem reportsOnce_between :
    let s : Session :=
      { maker := .origin (.ofSettings { fast := false })
        calls := [.request true "A", .restore ⟨["A", "None", "B"], [], ""⟩,
          .operate (.addNative ⟨"A", ""⟩), .operate (.addRedirect ⟨"B", "A"⟩), .request true "B",
          .request false "C", .readTag (.start #[1, 0, 67] none), .operate (.request "C")] }
    s.ReportsOnce ∧ s.events = [.tagMissing "A", .tagMissing "B", .tagMissing "C"] ∧
      (∃ m ∈ s.moments, m.Misses "C") ∧ ¬ ∃ m ∈ s.moments, m.Misses "D" := by
  intro s
  exact ⟨reportsOnce s (by simp [s]), by decide +kernel, by decide +kernel, by decide +kernel⟩

end Session
end TagTree.Registry
