import TagTree.Proofs.Registry.Accounted

/-!
# Rebuilding keeps what is known of the tags

A registry that agrees with its log is made again from it with the same sources,
rows and entries. Runs keep the agreement as long as nothing but code uses the
name of its source and the kind of a source of code. Comments that came late are
the exception: they are in the tree but not in the log, and a rebuild forgets
them.

The sources of a registry are their names and kinds together with the rows that
the log has for each, and the entries are what the log says of each name. A
rebuild keeps names and kinds, loads the log from its beginning and ends with
the same log. So if the registry agreed with its log before, sources and entries
are the same afterwards, with the exception of the comments that were not
logged.

Agreement is kept by runs in which the name and the kind of the source of code
are used by code alone. A list under that name, or a source of that kind, would
be loaded differently by a rebuild than at first. The names with late comments
are computed along the run, and a rebuild in between empties their list.
-/
namespace TagTree.Registry

def shelves (r : Registry) : List (String × SourceKind) := r.sources.map fun s => (s.name, s.kind)

theorem shelves_accept (r : Registry) (source : String) (native : Bool) (row : Row) :
    (r.accept source native row).shelves = r.shelves := by
  unfold shelves accept record
  rw [List.map_map]
  apply List.map_congr_left
  intro s _
  simp only [Function.comp_apply]
  split <;> rfl

theorem finalize_kept (r : Registry) :
    r.finalize.value.log = r.log ∧ r.finalize.value.sources = r.sources := by
  unfold finalize
  split
  · exact ⟨rfl, rfl⟩
  · obtain ⟨common, table, heq, _⟩ := reindex_eq { r with finalized := true }
    rw [Logged.value_bind]
    rw [heq]
    exact ⟨rfl, rfl⟩

namespace Accounted
variable {late : List String} {r : Registry} (h : Accounted late r)
include h

theorem replayRow (hf : r.finalized = false) {source : String}
    (hsource : source ∈ r.sources.map (·.name)) {row : Row} (hv : Name.Valid row.tag)
    (hnew : source = Source.native → row.tag ∉ r.coded) :
    (r.replayRow source row).value = r.accept source (source == Source.native) row := by
  have hsome := mem_sources_iff.mp hsource
  obtain ⟨s, hs⟩ := Option.isSome_iff_exists.mp hsome
  have hname : s.name = source := by simpa using List.find?_some hs
  have hkind := h.kinds s (List.mem_of_find?_eq_some hs)
  rw [hname] at hkind
  rw [Registry.replayRow, hs]
  dsimp only
  split
  · rename_i hnative
    have heq := hkind.mp hnative
    subst heq
    have hunknown : ¬ (r.source? Source.native).any fun s => s.rows.any (·.tag == row.tag) :=
      fun hknown => hnew rfl ((h.known_iff row.tag).mp hknown)
    rw [Logged.value_bind, addNative_of_valid hf hv, withSource_of_known hsome]
    dsimp only
    rw [if_neg hunknown]
    rfl
  · rename_i hother
    have hne : source ≠ Source.native := mt hkind.mpr hother
    have hload : (r.load source s.kind [row]).value.1 = r.accept source false row := by
      rw [load_of_unfinalized hf, withSource_of_known hsome, loadRows_of_valid r source hv]
      rfl
    rw [beq_eq_false_iff_ne.mpr hne]
    exact hload

theorem replay (hf : r.finalized = false) {log : List (String × Row)}
    (hlog : ∀ e ∈ log, e.1 ∈ r.sources.map (·.name) ∧ Name.Valid e.2.tag)
    (honce : ((rowsFrom (r.log ++ log) Source.native).map (·.tag)).Nodup) :
    Accounted late (r.replay log).value ∧ (r.replay log).value.log = r.log ++ log ∧
      (r.replay log).value.shelves = r.shelves := by
  induction log generalizing r with
  | nil => exact ⟨h, (List.append_nil _).symm, rfl⟩
  | cons e log ih =>
      obtain ⟨source, row⟩ := e
      obtain ⟨hsource, hv⟩ := hlog _ List.mem_cons_self
      dsimp only at hsource hv
      have hnew : source = Source.native → row.tag ∉ r.coded := by
        intro hnative hcoded
        rw [rowsFrom_append, List.map_append] at honce
        refine List.disjoint_of_nodup_append honce hcoded ?_
        simp [rowsFrom, hnative]
      have hstep := h.accept hsource hv hnew
      have hgrows := accept_grows h.consistent hsource (source == Source.native) hv
      rw [Registry.replay, Logged.value_bind, h.replayRow hf hsource hv hnew]
      have hassoc : r.log ++ (source, row) :: log = r.log ++ [(source, row)] ++ log := by simp
      rw [hassoc] at honce ⊢
      rw [← shelves_accept r source (source == Source.native) row]
      apply ih hstep hf
      · intro x hx
        have hx := hlog x (List.mem_cons_of_mem _ hx)
        exact ⟨hgrows.sources _ hx.1, hx.2⟩
      · exact honce

theorem cleared : Accounted [] r.cleared := by
  refine ⟨cleared_consistent r, ?_, ?_, List.nodup_nil, ?_, ?_⟩
  · intro s hs
    obtain ⟨s', hs', rfl⟩ := List.mem_map.mp hs
    exact h.kinds s' hs'
  · intro s hs
    obtain ⟨s', _, rfl⟩ := List.mem_map.mp hs
    rfl
  · intro name
    exact congrArg Entry.source (Tree.entryAt_empty name)
  · intro name _
    exact congrArg Entry.comment (Tree.entryAt_empty name)

theorem sources_eq : r.sources = r.shelves.map fun p => ⟨p.1, p.2, rowsFrom r.log p.1⟩ := by
  rw [shelves, List.map_map]
  conv_lhs => rw [← List.map_id r.sources]
  apply List.map_congr_left
  intro s hs
  simp only [Function.comp_apply, id, ← h.rows s hs]

/-- A rebuilt registry agrees with its log, which is the old one, in all. -/
theorem rebuild : Accounted [] r.rebuild.value ∧ r.rebuild.value.log = r.log ∧
    r.rebuild.value.sources = r.sources := by
  obtain ⟨hfresh, hsame, hshelves⟩ := h.cleared.replay rfl h.consistent.replayable h.once
  have hsources : (r.cleared.replay r.log).value.sources = r.sources := by
    rw [hfresh.sources_eq, h.sources_eq, hshelves, hsame]
    simp [shelves, Registry.cleared, Registry.empty]
  unfold Registry.rebuild
  rw [Logged.value_bind]
  split
  · have hend := finalize_kept (r.cleared.replay r.log).value
    exact ⟨hfresh.finalize, hend.1.trans hsame, hend.2.trans hsources⟩
  · exact ⟨hfresh, hsame, hsources⟩

theorem rebuild_source (name : String) :
    (r.rebuild.value.tree.entryAt name).source = (r.tree.entryAt name).source := by
  obtain ⟨hnew, hlog, _⟩ := h.rebuild
  rw [hnew.sources, h.sources, hlog]

theorem rebuild_entryAt {name : String} (hlate : name ∉ late) :
    r.rebuild.value.tree.entryAt name = r.tree.entryAt name := by
  obtain ⟨hnew, hlog, _⟩ := h.rebuild
  apply Tree.entry_eq (h.rebuild_source name)
  rw [hnew.comments name List.not_mem_nil, h.comments name hlate, hlog]

end Accounted

theorem Consistent.rebuild_contains {r : Registry} (h : r.Consistent) (name : String) :
    r.rebuild.value.contains name = r.contains name :=
  (rebuild_grows h).contains_eq h name

/-- No tag list takes the name of the source of code. -/
def Origin.Apart : Origin → Prop
  | .ofConfiguration c =>
    c.settings.importTags = true → ∀ list ∈ c.lists, list.name ≠ Source.native
  | _ => True

def Operation.Apart (r : Registry) : Operation → Prop
  | .load source kind _ =>
    source ≠ Source.native ∧ (r.source? source = none → kind ≠ .native)
  | .addRow source _ => source ≠ Source.native
  | _ => True

def Apart (r : Registry) : List Operation → Prop
  | [] => True
  | op :: ops => op.Apart r ∧ Apart (op.apply r).value ops

/-- The names with late comments after an operation. Rebuilding forgets these comments. -/
def Operation.late (r : Registry) (late : List String) : Operation → List String
  | .addNative row => late ++ r.lateNames row
  | .addNatives rows => late ++ r.lateComments rows
  | .rebuild => []
  | _ => late

def lateAfter (r : Registry) (late : List String) : List Operation → List String
  | [] => late
  | op :: ops => lateAfter (op.apply r).value (op.late r late) ops

theorem empty_accounted (s : Settings) : Accounted [] (empty s) := by
  refine ⟨empty_consistent s, nofun, nofun, List.nodup_nil, ?_, ?_⟩
  · intro name
    exact congrArg Entry.source (Tree.entryAt_empty name)
  · intro name _
    exact congrArg Entry.comment (Tree.entryAt_empty name)

theorem ofConfiguration_accounted {c : Configuration} (h : (Origin.ofConfiguration c).Apart) :
    Accounted [] (ofConfiguration c).value := by
  have hempty := empty_accounted c.settings
  unfold ofConfiguration
  dsimp only
  split
  · rename_i himport
    have hkind : SourceKind.defaultList ≠ .native := by decide
    have hrows := hempty.load (by decide : Source.settings ≠ Source.native) (fun _ => hkind)
      c.settings.rows
    have hlists := hrows.loadLists (h himport)
    exact hlists.addRedirects c.settings.redirects
  · exact hempty.addRedirects c.settings.redirects

theorem Origin.registry_accounted {o : Origin} (h : o.Apart) : Accounted [] o.registry.value := by
  cases o with
  | empty settings => exact empty_accounted settings
  | ofSettings settings => exact ofConfiguration_accounted (c := ⟨settings, []⟩) fun _ => nofun
  | ofConfiguration configuration => exact ofConfiguration_accounted h

theorem Operation.apply_accounted {r : Registry} {late : List String} (h : Accounted late r)
    {op : Operation} (hop : op.Apart r) : Accounted (op.late r late) (op.apply r).value := by
  cases op with
  | load source kind rows => exact h.load hop.1 hop.2 rows
  | addRow source row =>
      have hkind : SourceKind.dataTable ≠ .native := by decide
      exact h.load hop (fun _ => hkind) [row]
  | addNative row => exact h.addNative row
  | addNatives rows => exact h.addNatives rows
  | addRedirect redirect => exact h.addRedirect redirect
  | addRedirects redirects => exact h.addRedirects redirects
  | finalize => exact h.finalize
  | rebuild => exact h.rebuild.1
  | request name => exact h.request name

theorem run_accounted {r : Registry} {late : List String} (h : Accounted late r)
    {ops : List Operation} (hops : Apart r ops) : Accounted (lateAfter r late ops) (r.run ops) := by
  induction ops generalizing r late with
  | nil => exact h
  | cons op ops ih => exact ih (op.apply_accounted h hops.1) hops.2

theorem entry?_eq (r : Registry) (t : Tag) :
    r.entry? t = if r.contains t.name then some (r.tree.entryAt t.name) else none := by
  unfold entry? contains Tree.entryAt Tree.node?
  cases r.tree.position? t.name <;> rfl

/-- After a run in which other sources keep apart from code, a rebuild leaves the sources with their
rows and the source of every tag as they are, and the comment of every tag without a late one. -/
theorem rebuild_metadata (o : Origin) (ops : List Operation) (ho : o.Apart)
    (hops : Apart o.registry.value ops) :
    let r := run o.registry.value ops
    r.rebuild.value.sources = r.sources ∧
    (∀ t, (r.rebuild.value.entry? t).map (·.source) = (r.entry? t).map (·.source)) ∧
    ∀ t, t.name ∉ lateAfter o.registry.value [] ops → r.rebuild.value.entry? t = r.entry? t := by
  intro r
  have h : Accounted (lateAfter o.registry.value [] ops) r :=
    run_accounted (Origin.registry_accounted ho) hops
  refine ⟨h.rebuild.2.2, ?_, ?_⟩
  · intro t
    rw [entry?_eq, entry?_eq, h.consistent.rebuild_contains]
    split
    · exact congrArg some (h.rebuild_source t.name)
    · rfl
  · intro t hlate
    rw [entry?_eq, entry?_eq, h.consistent.rebuild_contains, h.rebuild_entryAt hlate]

/-- A list names a tag of code again and brings its comment; another tag is commented late. -/
theorem rebuild_metadata_interleaved :
    let o := Origin.empty {}
    let ops : List Operation := [.addNatives [⟨"A", ""⟩, ⟨"B", ""⟩], .load "List" .tagList [⟨"A", "a"⟩],
      .addNative ⟨"B", "b"⟩, .addNative ⟨"A.C", ""⟩, .finalize]
    let r := run o.registry.value ops
    r.rebuild.value.sources = r.sources ∧
      (r.rebuild.value.entry? ⟨"B"⟩).map (·.source) = (r.entry? ⟨"B"⟩).map (·.source) ∧
      r.rebuild.value.entry? ⟨"A"⟩ = r.entry? ⟨"A"⟩ ∧ r.entry? ⟨"A"⟩ = some ⟨some "Native", "a"⟩ := by
  intro o ops
  have hops : Apart o.registry.value ops :=
    ⟨trivial, ⟨by decide, fun _ => by decide⟩, trivial, trivial, trivial, trivial⟩
  have hlate : "A" ∉ lateAfter o.registry.value [] ops := by decide +kernel
  have hmain := rebuild_metadata o ops trivial hops
  exact ⟨hmain.1, hmain.2.1 ⟨"B"⟩, hmain.2.2 ⟨"A"⟩ hlate, by decide +kernel⟩

/-- The first comment of a tag that code registers again is not in the log. -/
theorem rebuild_metadata_late :
    let r := (empty {}).run [.addNative ⟨"A", ""⟩, .addNative ⟨"A", "second"⟩]
    r.entry? ⟨"A"⟩ = some ⟨some "Native", "second"⟩ ∧
      r.rebuild.value.entry? ⟨"A"⟩ = some ⟨some "Native", ""⟩ := by
  decide +kernel

end TagTree.Registry
