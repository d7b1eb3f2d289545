import TagTree.Proofs.Registry.Accounted

/-!
# Loading rows before code is done

As long as code may register, loading does two things to a row: if its name is
not refused the row goes into the log and to its source, and if it is refused
that is reported. So the log and the reports are told by the rows that were
offered, in their order.

`Loaded` compares a registry in which code may still register with the list of
rows that were offered to it, each with the name of its source. The log holds
the acceptable ones in their order, and the rows of a source are those of the
log under its name. Offering more rows appends them, so a configuration with its
lists is one concatenation.

The reports of loading are a filter of the same list: one for each row that is
skipped, with its source and its fault. Nothing else is reported by loading rows
before the registry is finalized, since no index is made on the way.
-/
namespace TagTree.Registry

def skipped? (e : String × Row) : Option Event :=
  (nameError? e.2.tag).map (.rowSkipped e.1 e.2.tag)

theorem loadRows_events (r : Registry) (source : String) (rows : List Row) :
    (r.loadRows source rows).events = (rows.map (source, ·)).filterMap skipped? := by
  induction rows generalizing r with
  | nil => rfl
  | cons row rows ih =>
      rw [loadRows, insertName, List.map_cons, List.filterMap_cons, skipped?]
      cases nameError? row.tag with
      | none =>
          dsimp only
          rw [Logged.events_bind, ih]
          exact List.append_nil _
      | some cause =>
          dsimp only
          rw [Logged.events_bind, ih]
          rfl

theorem load_events {r : Registry} (hf : r.finalized = false) (source : String) (kind : SourceKind)
    (rows : List Row) :
    (r.load source kind rows).events = (rows.map (source, ·)).filterMap skipped? := by
  have hflag := (loadRows_withSource_finalized r source kind rows).trans hf
  rw [load, Logged.events_bind, loadRows_events]
  dsimp only
  rw [hflag]
  exact List.append_nil _

def acceptable (offered : List (String × Row)) : List (String × Row) :=
  offered.filter fun e => decide (Name.Valid e.2.tag)

theorem acceptable_append (es es' : List (String × Row)) :
    acceptable (es ++ es') = acceptable es ++ acceptable es' := List.filter_append ..

/-- A registry in which code may register has logged what it could of the rows offered to it, and holds
them under their sources. -/
structure Loaded (offered : List (String × Row)) (r : Registry) : Prop where
  consistent : r.Consistent
  finalized : r.finalized = false
  filed : r.Filed
  log : r.log = acceptable offered

theorem empty_loaded (s : Settings) : Loaded [] (empty s) :=
  ⟨empty_consistent s, rfl, nofun, rfl⟩

namespace Loaded
variable {offered : List (String × Row)} {r : Registry} (h : Loaded offered r)
include h

theorem loadRows {source : String} (hsource : source ∈ r.sources.map (·.name)) (rows : List Row) :
    Loaded (offered ++ rows.map (source, ·)) (r.loadRows source rows).value.1 := by
  induction rows generalizing r offered with
  | nil => exact (List.append_nil offered).symm ▸ h
  | cons row rows ih =>
      rw [List.map_cons, List.append_cons]
      by_cases hv : Name.Valid row.tag
      · have hgrows := accept_grows h.consistent hsource false hv
        have hstep : Loaded (offered ++ [(source, row)]) (r.accept source false row) := by
          refine ⟨hgrows.consistent, h.finalized, h.filed.accept source false row, ?_⟩
          have hlog : (r.accept source false row).log = r.log ++ [(source, row)] := rfl
          rw [hlog, h.log, acceptable_append]
          simp [acceptable, hv]
        rw [loadRows_of_valid r source hv]
        exact ih hstep (hgrows.sources source hsource)
      · have hstep : Loaded (offered ++ [(source, row)]) r := by
          refine ⟨h.consistent, h.finalized, h.filed, ?_⟩
          rw [h.log, acceptable_append]
          simp [acceptable, hv]
        rw [loadRows_of_not_valid r source hv]
        exact ih hstep hsource

theorem load (source : String) (kind : SourceKind) (rows : List Row) :
    Loaded (offered ++ rows.map (source, ·)) (r.load source kind rows).value.1 := by
  obtain ⟨hgrows, hmem⟩ := withSource_grows h.consistent source kind
  have hwith : Loaded offered (r.withSource source kind) := by
    refine ⟨hgrows.consistent, (withSource_finalized r source kind).trans h.finalized,
      h.filed.withSource h.consistent source kind, ?_⟩
    rw [← h.log]
    unfold withSource
    split <;> rfl
  rw [load_of_unfinalized h.finalized]
  exact hwith.loadRows hmem rows

theorem mem_log {e : String × Row} (he : e ∈ offered) : e ∈ r.log ↔ Name.Valid e.2.tag := by
  rw [h.log, acceptable, List.mem_filter]
  simp [he]

end Loaded

def listed (lists : List TagList) : List (String × Row) :=
  lists.flatMap fun list => list.rows.map (list.name, ·)

theorem Loaded.loadLists {offered : List (String × Row)} {r : Registry} (h : Loaded offered r)
    (lists : List TagList) : Loaded (offered ++ listed lists) (r.loadLists lists).value ∧
      (r.loadLists lists).events = (listed lists).filterMap skipped? := by
  induction lists generalizing r offered with
  | nil => exact ⟨(List.append_nil offered).symm ▸ h, rfl⟩
  | cons list lists ih =>
      obtain ⟨hrest, hevents⟩ := ih (h.load list.name .tagList list.rows)
      rw [List.append_assoc] at hrest
      refine ⟨hrest, ?_⟩
      rw [Registry.loadLists, Logged.events_bind, load_events h.finalized, hevents, listed, listed,
        List.flatMap_cons, List.filterMap_append]

theorem load_source {r : Registry} (h : r.Consistent) (hf : r.finalized = false) (source : String)
    (kind : SourceKind) (rows : List Row) :
    source ∈ (r.load source kind rows).value.1.sources.map (·.name) := by
  obtain ⟨hgrows, hmem⟩ := withSource_grows h source kind
  rw [load_of_unfinalized hf]
  exact (loadRows_grows hgrows.consistent hmem rows).1.sources source hmem

theorem Loaded.loadLists_sources {offered : List (String × Row)} {r : Registry}
    (h : Loaded offered r) {lists : List TagList} {list : TagList} (hlist : list ∈ lists) :
    list.name ∈ (r.loadLists lists).value.sources.map (·.name) := by
  induction lists generalizing r offered with
  | nil => cases hlist
  | cons first lists ih =>
      have hstep := h.load first.name .tagList first.rows
      rcases List.mem_cons.mp hlist with rfl | hlist
      · have hmem := load_source h.consistent h.finalized list.name .tagList list.rows
        exact (loadLists_grows hstep.consistent lists).sources _ hmem
      · exact ih hstep hlist

end TagTree.Registry
