import TagTree.Proofs.Registry.Contract
import TagTree.Proofs.Registry.Rebuilding

/-!
# What a refused registration from code leaves

The source of code is made before a name is looked at, so a refusal can leave a
source without rows where there was none. Nothing else is touched. The source
makes no difference to the rows that are loaded, so a rebuild with it is the
rebuild without it and the source added. A table of code that is refused leaves
what the definitions in front of the refused one leave, and the source without
rows if there are none.

`prepared` is a registry with a source for code, and `afterRefusal` is what a
refusal leaves: that registry if code may still register, and the same one if it
may not. Loading rows does not look at a source without rows, so it makes no
difference whether such a source is made before or after. That is proved for one
row, for the log and for a rebuild, and a rebuild after a refusal is a refusal
after a rebuild.

A table is refused at one definition, and the definitions in front of it were
registered. If there are any, the source of code was made by the first of them
and the refusal changes nothing at all.
-/
namespace TagTree.Registry

/-- A registry with a source for code. -/
def prepared (r : Registry) : Registry := r.withSource Source.native .native

/-- The source that a registration from code has to make. -/
def newSource (r : Registry) : List Source :=
  if r.finalized || (r.source? Source.native).isSome then [] else [⟨Source.native, .native, []⟩]

def afterRefusal (r : Registry) : Registry := { r with sources := r.sources ++ r.newSource }

theorem prepared_of_known {r : Registry} (h : (r.source? Source.native).isSome) : r.prepared = r :=
  withSource_of_known h .native

theorem prepared_of_unknown {r : Registry} (h : ¬ (r.source? Source.native).isSome) :
    r.prepared = { r with sources := r.sources ++ [⟨Source.native, .native, []⟩] } := if_neg h

theorem isSome_source?_prepared (r : Registry) : (r.prepared.source? Source.native).isSome := by
  by_cases h : (r.source? Source.native).isSome = true
  · rwa [prepared_of_known h]
  · rw [prepared_of_unknown h]
    simp [source?]

theorem prepared_prepared (r : Registry) : r.prepared.prepared = r.prepared :=
  prepared_of_known r.isSome_source?_prepared

theorem source?_prepared {r : Registry} {source : String} {s : Source}
    (h : r.source? source = some s) : r.prepared.source? source = some s := by
  by_cases hknown : (r.source? Source.native).isSome = true
  · rwa [prepared_of_known hknown]
  · rw [prepared_of_unknown hknown]
    rw [source?] at h
    rw [source?, List.find?_append, h]
    rfl

theorem afterRefusal_of_nil {r : Registry} (h : r.newSource = []) : r.afterRefusal = r := by
  rw [afterRefusal, h, List.append_nil]

theorem afterRefusal_of_known {r : Registry} (h : (r.source? Source.native).isSome) :
    r.afterRefusal = r := afterRefusal_of_nil (by simp [newSource, h])

theorem afterRefusal_of_finalized {r : Registry} (h : r.finalized = true) : r.afterRefusal = r :=
  afterRefusal_of_nil (by simp [newSource, h])

theorem afterRefusal_of_unfinalized {r : Registry} (h : r.finalized = false) :
    r.afterRefusal = r.prepared := by
  by_cases hknown : (r.source? Source.native).isSome = true
  · rw [afterRefusal_of_known hknown, prepared_of_known hknown]
  · rw [prepared_of_unknown hknown]
    simp [afterRefusal, newSource, h, hknown]

theorem sources_accept (r : Registry) (source : String) (native : Bool) (row : Row) :
    (r.accept source native row).sources.map (·.name) = r.sources.map (·.name) := by
  have hshelves := congrArg (List.map Prod.fst) (shelves_accept r source native row)
  rwa [shelves, shelves, List.map_map, List.map_map] at hshelves

theorem change_prepared (change : Registry → Registry) {r : Registry}
    (hnames : (change r).sources.map (·.name) = r.sources.map (·.name))
    (hnew : Source.native ∉ r.sources.map (·.name) →
      change { r with sources := r.sources ++ [⟨Source.native, .native, []⟩] } =
        { change r with sources := (change r).sources ++ [⟨Source.native, .native, []⟩] }) :
    change r.prepared = (change r).prepared := by
  have hsame : ((change r).source? Source.native).isSome ↔ (r.source? Source.native).isSome := by
    rw [← mem_sources_iff, ← mem_sources_iff, hnames]
  by_cases hknown : (r.source? Source.native).isSome = true
  · rw [prepared_of_known hknown, prepared_of_known (hsame.mpr hknown)]
  · rw [prepared_of_unknown hknown, prepared_of_unknown (mt hsame.mp hknown)]
    exact hnew (mt mem_sources_iff.mp hknown)

theorem accept_prepared {r : Registry} {source : String} (hsource : source ∈ r.sources.map (·.name))
    (native : Bool) (row : Row) :
    r.prepared.accept source native row = (r.accept source native row).prepared := by
  apply change_prepared (·.accept source native row) (sources_accept r source native row)
  intro hnew
  have hother : Source.native ≠ source := (ne_of_mem_of_not_mem hsource hnew).symm
  simp [accept, record, hother]

theorem addNative_prepared {r : Registry} (hf : r.finalized = false) (row : Row) :
    r.prepared.addNative row = r.addNative row := by
  have hflag : r.prepared.finalized = false := (withSource_finalized ..).trans hf
  have hsame : r.prepared.withSource Source.native .native = r.withSource Source.native .native :=
    r.prepared_prepared
  rw [addNative, addNative, if_neg (by simp [hflag]), if_neg (by simp [hf]), hsame]

/-- Whatever code is answered, it has a source then. -/
theorem known_addNative {r : Registry} (hf : r.finalized = false) (row : Row) :
    ((r.addNative row).value.1.source? Source.native).isSome := by
  have hknown := r.isSome_source?_prepared
  by_cases hv : Name.Valid row.tag
  · rw [addNative_of_valid hf hv]
    dsimp only
    split
    · exact hknown
    · rw [← mem_sources_iff, sources_accept, mem_sources_iff]
      exact hknown
  · obtain ⟨cause, hvalue⟩ := addNative_of_not_valid hf hv
    rw [hvalue]
    exact hknown

theorem load_prepared {r : Registry} (hf : r.finalized = false) {source : String}
    (hsource : source ∈ r.sources.map (·.name)) (kind : SourceKind) {row : Row}
    (hv : Name.Valid row.tag) :
    (r.prepared.load source kind [row]).value.1 = (r.load source kind [row]).value.1.prepared := by
  have hflag : r.prepared.finalized = false := (withSource_finalized ..).trans hf
  obtain ⟨s, hs⟩ := Option.isSome_iff_exists.mp (mem_sources_iff.mp hsource)
  have hknown : (r.source? source).isSome := by simp [hs]
  have hknown' : (r.prepared.source? source).isSome := by simp [source?_prepared hs]
  rw [load_of_unfinalized hf, load_of_unfinalized hflag, withSource_of_known hknown,
    withSource_of_known hknown', loadRows_of_valid _ source hv, loadRows_of_valid _ source hv,
    accept_prepared hsource]
  rfl

theorem replayRow_prepared {r : Registry} (hf : r.finalized = false) {source : String}
    (hsource : source ∈ r.sources.map (·.name)) {row : Row} (hv : Name.Valid row.tag) :
    (r.prepared.replayRow source row).value = (r.replayRow source row).value.prepared := by
  obtain ⟨s, hs⟩ := Option.isSome_iff_exists.mp (mem_sources_iff.mp hsource)
  rw [replayRow, replayRow, source?_prepared hs, hs]
  dsimp only
  split
  · have hkept := prepared_of_known (known_addNative hf row)
    rw [Logged.value_bind, Logged.value_bind, addNative_prepared hf]
    cases hout : (r.addNative row).value with
    | mk r₁ answer =>
    rw [hout] at hkept
    cases answer <;> exact hkept.symm
  · exact load_prepared hf hsource s.kind hv

theorem replay_prepared {r : Registry} (h : r.Consistent) (hf : r.finalized = false)
    {log : List (String × Row)}
    (hlog : ∀ e ∈ log, e.1 ∈ r.sources.map (·.name) ∧ Name.Valid e.2.tag) :
    (r.prepared.replay log).value = (r.replay log).value.prepared := by
  induction log generalizing r with
  | nil => rfl
  | cons e log ih =>
      obtain ⟨hsource, hv⟩ := hlog e List.mem_cons_self
      obtain ⟨hgrows, hflag⟩ := replayRow_grows h hf hsource hv
      have hrest := ih hgrows.consistent hflag fun x hx =>
        have hx := hlog x (List.mem_cons_of_mem _ hx)
        ⟨hgrows.sources _ hx.1, hx.2⟩
      rw [replay, replay, Logged.value_bind, Logged.value_bind, replayRow_prepared hf hsource hv]
      exact hrest

theorem cleared_prepared (r : Registry) : r.prepared.cleared = r.cleared.prepared := by
  apply change_prepared cleared (cleared_sources r)
  intro _
  simp [cleared]

theorem reindex_withSources (r : Registry) (sources : List Source) :
    ({ r with sources } : Registry).reindex.value = { r.reindex.value with sources } := by
  have hcommon : (findCommon { r with sources } r.settings.common).value =
      (r.findCommon r.settings.common).value := by
    rw [findCommon_value, findCommon_value]
    rfl
  unfold reindex
  simp only [Logged.value_bind, Logged.value_pure, hcommon]

theorem finalize_withSources (r : Registry) (sources : List Source) :
    ({ r with sources } : Registry).finalize.value = { r.finalize.value with sources } := by
  unfold finalize
  dsimp only
  split
  · rfl
  · exact reindex_withSources { r with finalized := true } sources

theorem finalize_prepared (r : Registry) : r.prepared.finalize.value = r.finalize.value.prepared := by
  have hkept := (finalize_kept r).2
  apply change_prepared (fun r => r.finalize.value) (by rw [hkept])
  intro _
  dsimp only
  rw [finalize_withSources, hkept]

theorem rebuild_prepared {r : Registry} (h : r.Consistent) :
    r.prepared.rebuild.value = r.rebuild.value.prepared := by
  have hsame : r.prepared.finalized = r.finalized := withSource_finalized ..
  have hreplay := replay_prepared (cleared_consistent r) rfl h.replayable
  have hkept : r.prepared.log = r.log := by
    unfold prepared withSource
    split <;> rfl
  rw [rebuild, rebuild, Logged.value_bind, Logged.value_bind, cleared_prepared, hkept, hreplay, hsame]
  split
  · exact finalize_prepared _
  · rfl

theorem Consistent.rebuild_afterRefusal {r : Registry} (h : r.Consistent) :
    r.afterRefusal.rebuild.value = r.rebuild.value.afterRefusal := by
  have hflag := (rebuild_flags r).2
  cases hf : r.finalized with
  | true => rw [afterRefusal_of_finalized hf, afterRefusal_of_finalized (hflag.trans hf)]
  | false =>
      rw [afterRefusal_of_unfinalized hf, afterRefusal_of_unfinalized (hflag.trans hf),
        rebuild_prepared h]

theorem addNative_of_error {r : Registry} {row : Row} {cause : RegistryError}
    (h : (r.addNative row).value.2 = .error cause) : (r.addNative row).value.1 = r.afterRefusal := by
  cases hf : r.finalized with
  | true =>
      rw [addNative_of_finalized hf]
      exact (afterRefusal_of_finalized hf).symm
  | false =>
    by_cases hv : Name.Valid row.tag
    · rw [(addNative_answers hf hv).1] at h
      cases h
    · obtain ⟨_, hvalue⟩ := addNative_of_not_valid hf hv
      rw [hvalue, afterRefusal_of_unfinalized hf]
      rfl

/-- A table is refused at a definition when those in front of it have been registered. -/
theorem addNatives_of_error {r : Registry} {rows : List Row} {cause : RegistryError}
    (h : (r.addNatives rows).value.2 = .error cause) : ∃ before row after,
      rows = before ++ row :: after ∧ (r.addNatives before).value.2 = .ok () ∧
      ((r.addNatives before).value.1.addNative row).value =
        ((r.addNatives rows).value.1, .error cause) := by
  induction rows generalizing r with
  | nil => cases h
  | cons row rows ih =>
      rw [addNatives, Logged.value_bind] at h ⊢
      cases hout : (r.addNative row).value with
      | mk r₁ answer =>
      rw [hout] at h
      cases answer with
      | error fault =>
          cases h
          exact ⟨[], row, rows, rfl, rfl, hout⟩
      | ok tag =>
          obtain ⟨before, row', after, hrows, hok, hrefused⟩ := ih h
          have hstep : (r.addNatives (row :: before)).value = (r₁.addNatives before).value := by
            rw [addNatives, Logged.value_bind, hout]
          refine ⟨row :: before, row', after, by rw [hrows, List.cons_append], ?_, ?_⟩
          · rw [hstep]
            exact hok
          · rw [hstep]
            exact hrefused

theorem known_addNatives {r : Registry} (h : r.Consistent) {row : Row} {rows : List Row}
    (hok : (r.addNatives (row :: rows)).value.2 = .ok ()) :
    ((r.addNatives (row :: rows)).value.1.source? Source.native).isSome := by
  by_cases hgood : r.finalized = false ∧ Name.Valid row.tag
  · have hstep := (addNative_accepts h hgood.1 hgood.2).1
    have hrest := (addNatives_grows hstep.consistent rows).1
    have hknown := mem_sources_iff.mpr (known_addNative hgood.1 row)
    rw [addNatives_of_accepted hgood.1 hgood.2]
    exact mem_sources_iff.mp (hrest.sources _ hknown)
  · obtain ⟨cause, hvalue⟩ := addNative_of_refused hgood
    rw [addNatives, Logged.value_bind, hvalue] at hok
    cases hok

/-- What a registration from code that is refused makes of a registry. -/
structure Refused (r r' : Registry) : Prop where
  rest : r' = { r with sources := r'.sources }
  sources : r'.sources = r.sources ++ r.newSource
  rebuiltRest : r'.rebuild.value = { r.rebuild.value with sources := r'.rebuild.value.sources }
  rebuiltSources : r'.rebuild.value.sources = r.rebuild.value.sources ++ r.rebuild.value.newSource

/-- What a table of code that is refused makes of a registry. -/
def RefusedTable (r r' : Registry) (rows : List Row) (cause : RegistryError) : Prop :=
  ∃ before row after, rows = before ++ row :: after ∧ (r.addNatives before).value.2 = .ok () ∧
    ((r.addNatives before).value.1.addNative row).value.2 = .error cause ∧
    Refused (r.addNatives before).value.1 r' ∧
    (before ≠ [] → r' = (r.addNatives before).value.1)

theorem refused_afterRefusal {r : Registry} (h : r.Consistent) : Refused r r.afterRefusal := by
  have hrebuilt := h.rebuild_afterRefusal
  refine ⟨rfl, rfl, ?_, ?_⟩
  · rw [hrebuilt]
    rfl
  · rw [hrebuilt]
    rfl

/-- A refused registration from code leaves a registry as it was, now and after a rebuild, but for a
source of code without rows where there was none and code may still register. A table of code that is
refused leaves what its definitions in front of the refused one leave, with that source if there are none. -/
theorem refused_of_error {r : Registry} (h : Reachable r) :
    (∀ row cause, (r.addNative row).value.2 = .error cause → Refused r (r.addNative row).value.1) ∧
    ∀ rows cause, (r.addNatives rows).value.2 = .error cause →
      RefusedTable r (r.addNatives rows).value.1 rows cause := by
  constructor
  · intro row cause herror
    rw [addNative_of_error herror]
    exact refused_afterRefusal h.consistent
  · intro rows cause herror
    obtain ⟨before, row, after, hrows, hok, hrefused⟩ := addNatives_of_error herror
    have hcause := congrArg Prod.snd hrefused
    have hleft := addNative_of_error hcause
    rw [hrefused] at hleft
    dsimp only at hleft
    have hconsistent := (addNatives_grows h.consistent before).1.consistent
    refine ⟨before, row, after, hrows, hok, hcause, hleft ▸ refused_afterRefusal hconsistent, ?_⟩
    intro hne
    obtain ⟨first, rest, rfl⟩ := List.exists_cons_of_ne_nil hne
    exact hleft.trans (afterRefusal_of_known (known_addNatives h.consistent hok))

/-- A refusal where there is a tag of a list, and one behind a definition that is registered. -/
theorem refused_of_error_listed :
    let r := (empty {}).run [.load "List" .tagList [⟨"A", "a"⟩], .addRedirect ⟨"B", "A"⟩]
    let table : List Row := [⟨"C", ""⟩, ⟨"", ""⟩, ⟨"D", ""⟩]
    Refused r (r.addNative ⟨"A..B", ""⟩).value.1 ∧
      RefusedTable r (r.addNatives table).value.1 table .emptyTagName ∧
      (r.addNatives table).value.1 = (r.addNatives [⟨"C", ""⟩]).value.1 := by
  intro r table
  have hr : Reachable r := Reachable.run (.origin (.empty {})) _
  obtain ⟨hone, htable⟩ := refused_of_error hr
  have hname : (r.addNative ⟨"A..B", ""⟩).value.2 =
      .error (.invalidTagName "A..B" .emptySegment) := by decide +kernel
  have hempty : (r.addNatives table).value.2 = .error .emptyTagName := by decide +kernel
  exact ⟨hone _ _ hname, htable _ _ hempty, by decide +kernel⟩

/-- A registry that had no source has one after a refusal, and a rebuild keeps it. -/
theorem refused_of_error_trace :
    let r := empty {}
    let refused := r.addNative ⟨"A..B", ""⟩
    refused.value.2 = .error (.invalidTagName "A..B" .emptySegment) ∧ r.sources = [] ∧
      refused.value.1.sources = [⟨"Native", .native, []⟩] ∧
      refused.value.1.rebuild.value.sources ≠ r.rebuild.value.sources ∧
      (r.addNatives [⟨"A..B", ""⟩, ⟨"C", ""⟩]).value.1 ≠ (r.addNatives []).value.1 := by
  decide +kernel

end TagTree.Registry
