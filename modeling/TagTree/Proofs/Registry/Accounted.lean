import TagTree.Proofs.Registry.Run
import TagTree.Proofs.Tree.Entries

/-!
# What the log accounts for

The log tells which rows a source has, which source a name has and with which
comment. The sources and entries of a registry agree with its log as long as the
name of the source of code is used by code alone. One thing is not logged: code
that registers a name of its own again may bring the first comment of that name.

What a log says of a name is computed from the rows of that name alone, in their
order: code is the source if it logged one, else the first, and the comment is
the first that is not empty. `Accounted` is the agreement of a registry with its
log, with a list of names whose comments it does not vouch for. A logged row
extends both sides in the same way.

Registering a name from code again is the one operation that changes an entry
without a row in the log, and it can do so only if the name had no comment. So
the exceptions can be listed as names while the operations go on, and everything
outside the list is a function of the log.
-/
namespace TagTree.Registry

def rowsFrom (log : List (String × Row)) (source : String) : List Row :=
  (log.filter (·.1 == source)).map (·.2)

def mentions (log : List (String × Row)) (name : String) : List (String × Row) :=
  log.filter (·.2.tag == name)

/-- The source that a name has if these named it in turn: code if it did, else the first. -/
def owner (sources : List String) : Option String :=
  if Source.native ∈ sources then some Source.native else sources.head?

/-- The first comment that is not empty. -/
def firstComment (comments : List String) : String := (comments.find? (· ≠ "")).getD ""

/-- What a log says of a name. -/
def noted (log : List (String × Row)) (name : String) : Entry where
  source := owner ((mentions log name).map (·.1))
  comment := firstComment ((mentions log name).map (·.2.comment))

theorem rowsFrom_append (log more : List (String × Row)) (name : String) :
    rowsFrom (log ++ more) name = rowsFrom log name ++ rowsFrom more name := by
  rw [rowsFrom, List.filter_append, List.map_append, rowsFrom, rowsFrom]

theorem rowsFrom_snoc (log : List (String × Row)) (source : String) (row : Row) (name : String) :
    rowsFrom (log ++ [(source, row)]) name =
      rowsFrom log name ++ if source = name then [row] else [] := by
  rw [rowsFrom_append]
  by_cases h : source = name <;> simp [rowsFrom, h]

theorem mentions_snoc (log : List (String × Row)) (source : String) (row : Row) (name : String) :
    mentions (log ++ [(source, row)]) name =
      mentions log name ++ if row.tag = name then [(source, row)] else [] := by
  unfold mentions
  by_cases h : row.tag = name <;> simp [h]

theorem owner_snoc (sources : List String) (source : String) : owner (sources ++ [source]) =
    if source == Source.native || (owner sources).isNone then some source else owner sources := by
  unfold owner
  by_cases hnative : source = Source.native
  · simp [hnative]
  · cases sources with
    | nil => simp
    | cons first rest =>
        by_cases hmem : Source.native ∈ first :: rest
        · have hsnoc : Source.native ∈ first :: rest ++ [source] := List.mem_append_left _ hmem
          rw [if_pos hsnoc, if_pos hmem]
          simp [hnative]
        · have hsnoc : Source.native ∉ first :: rest ++ [source] := by
            simpa [Ne.symm hnative] using hmem
          rw [if_neg hsnoc, if_neg hmem]
          simp [hnative]

theorem firstComment_snoc (comments : List String) (comment : String) :
    firstComment (comments ++ [comment]) =
      if firstComment comments = "" then comment else firstComment comments := by
  unfold firstComment
  rw [List.find?_append]
  cases h : comments.find? (· ≠ "") with
  | none => by_cases hc : comment = "" <;> simp [hc]
  | some first =>
      have hne : first ≠ "" := by simpa using List.find?_some h
      simp [hne]

theorem noted_snoc (log : List (String × Row)) (source : String) (row : Row) (name : String) :
    noted (log ++ [(source, row)]) name =
      if name = row.tag then claim source (source == Source.native) row.comment (noted log name)
      else noted log name := by
  unfold noted
  rw [mentions_snoc]
  by_cases hname : name = row.tag
  · rw [if_pos hname, if_pos hname.symm, List.map_append, List.map_append]
    simp only [List.map_cons, List.map_nil]
    rw [owner_snoc, firstComment_snoc]
    rfl
  · rw [if_neg hname, if_neg fun h => hname h.symm, List.append_nil]

theorem noted_source {log : List (String × Row)} {name : String}
    (h : name ∈ (rowsFrom log Source.native).map (·.tag)) :
    (noted log name).source = some Source.native := by
  obtain ⟨row, hrow, htag⟩ := List.mem_map.mp h
  obtain ⟨e, he, rfl⟩ := List.mem_map.mp hrow
  obtain ⟨hlog, hsource⟩ := List.mem_filter.mp he
  have hmention : e ∈ mentions log name := List.mem_filter.mpr ⟨hlog, by simp [htag]⟩
  have hmem : Source.native ∈ (mentions log name).map (·.1) :=
    List.mem_map.mpr ⟨e, hmention, eq_of_beq hsource⟩
  exact if_pos hmem

/-- Each source holds the rows that were logged under its name. -/
def Filed (r : Registry) : Prop := ∀ s ∈ r.sources, s.rows = rowsFrom r.log s.name

theorem Consistent.rowsFrom_of_unknown {r : Registry} (h : r.Consistent) {source : String}
    (hs : r.source? source = none) : rowsFrom r.log source = [] := by
  have hnone : r.log.filter (·.1 == source) = [] := by
    apply List.filter_eq_nil_iff.mpr
    intro e he heq
    have hmem := mem_sources_iff.mp (h.sourced e he)
    rw [eq_of_beq heq, hs] at hmem
    cases hmem
  rw [rowsFrom, hnone]
  rfl

namespace Filed
variable {r : Registry} (h : r.Filed)
include h

theorem withSource (hc : r.Consistent) (source : String) (kind : SourceKind) :
    (r.withSource source kind).Filed := by
  unfold Registry.withSource
  split
  · exact h
  · rename_i hs
    intro s hmem
    rcases List.mem_append.mp hmem with hmem | hmem
    · exact h s hmem
    · rw [List.mem_singleton.mp hmem]
      exact (hc.rowsFrom_of_unknown (Option.not_isSome_iff_eq_none.mp hs)).symm

theorem accept (source : String) (native : Bool) (row : Row) : (r.accept source native row).Filed := by
  intro s hs
  have hlog : (r.accept source native row).log = r.log ++ [(source, row)] := rfl
  obtain ⟨s', hs', rfl⟩ := List.mem_map.mp hs
  have hold := h s' hs'
  rw [hlog]
  split
  · rename_i hname
    dsimp only
    rw [rowsFrom_snoc, if_pos hname.symm, hold]
  · rename_i hname
    rw [rowsFrom_snoc, if_neg (Ne.symm hname), hold, List.append_nil]

end Filed

/-- The names that code registered. -/
def coded (r : Registry) : List String := (rowsFrom r.log Source.native).map (·.tag)

/-- A registry that agrees with its log, but for the comments of the names in `late`. -/
structure Accounted (late : List String) (r : Registry) : Prop where
  consistent : r.Consistent
  kinds : ∀ s ∈ r.sources, s.kind = .native ↔ s.name = Source.native
  rows : ∀ s ∈ r.sources, s.rows = rowsFrom r.log s.name
  once : r.coded.Nodup
  sources : ∀ name, (r.tree.entryAt name).source = (noted r.log name).source
  comments : ∀ name ∉ late, (r.tree.entryAt name).comment = (noted r.log name).comment

namespace Accounted
variable {late : List String} {r : Registry} (h : Accounted late r)
include h

theorem mono {more : List String} (hsub : late ⊆ more) : Accounted more r := by
  refine ⟨h.consistent, h.kinds, h.rows, h.once, h.sources, ?_⟩
  intro name hname
  exact h.comments name fun hlate => hname (hsub hlate)

theorem of_same {r' : Registry} (hc : r'.Consistent) (hsources : r'.sources = r.sources)
    (hlog : r'.log = r.log) (hentries : ∀ name, r'.tree.entryAt name = r.tree.entryAt name) :
    Accounted late r' := by
  constructor
  case consistent => exact hc
  case kinds => exact hsources ▸ h.kinds
  case rows => exact hsources ▸ hlog ▸ h.rows
  case once =>
      rw [coded, hlog]
      exact h.once
  case sources =>
      intro name
      rw [hentries, hlog]
      exact h.sources name
  case comments =>
      intro name hname
      rw [hentries, hlog]
      exact h.comments name hname

/-- The rows under the source of code are those that code registered. -/
theorem known_iff (name : String) :
    ((r.source? Source.native).any fun s => s.rows.any (·.tag == name)) ↔ name ∈ r.coded := by
  unfold coded
  cases hs : r.source? Source.native with
  | none => simp [h.consistent.rowsFrom_of_unknown hs]
  | some s =>
      have hname : s.name = Source.native := by simpa using List.find?_some hs
      have hrows := h.rows s (List.mem_of_find?_eq_some hs)
      rw [hname] at hrows
      simp [hrows]

theorem withSource {source : String} {kind : SourceKind}
    (hkind : r.source? source = none → (kind = .native ↔ source = Source.native)) :
    Accounted late (r.withSource source kind) := by
  have hc := (withSource_grows h.consistent source kind).1.consistent
  have hfiled := Filed.withSource h.rows h.consistent source kind
  cases hs : r.source? source with
  | some s =>
      rw [withSource_of_known (by simp [hs])]
      exact h
  | none =>
    rw [Registry.withSource, if_neg (by simp [hs])] at hc hfiled ⊢
    refine ⟨hc, ?_, hfiled, h.once, h.sources, h.comments⟩
    intro s hmem
    rcases List.mem_append.mp hmem with hmem | hmem
    · exact h.kinds s hmem
    · rw [List.mem_singleton.mp hmem]
      exact hkind hs

theorem accept {source : String} (hsource : source ∈ r.sources.map (·.name)) {row : Row}
    (hrow : Name.Valid row.tag) (hnew : source = Source.native → row.tag ∉ r.coded) :
    Accounted late (r.accept source (source == Source.native) row) := by
  have hentry : ∀ name, (r.accept source (source == Source.native) row).tree.entryAt name =
      if name = row.tag then
        claim source (source == Source.native) row.comment (r.tree.entryAt name)
      else r.tree.entryAt name := Tree.entryAt_insert h.consistent.tree hrow.proper _
  have hlog : (r.accept source (source == Source.native) row).log = r.log ++ [(source, row)] := rfl
  constructor
  case consistent => exact (accept_grows h.consistent hsource _ hrow).consistent
  case kinds =>
      intro s hs
      obtain ⟨s', hs', rfl⟩ := List.mem_map.mp hs
      have hold := h.kinds s' hs'
      split <;> exact hold
  case rows => exact Filed.accept h.rows source _ row
  case once =>
      rw [coded, hlog, rowsFrom_snoc]
      split
      · rename_i hnative
        rw [List.map_append]
        refine List.Nodup.append h.once (List.nodup_singleton _) ?_
        exact List.disjoint_singleton.mpr (hnew hnative)
      · rw [List.append_nil]
        exact h.once
  case sources =>
      intro name
      rw [hentry, hlog, noted_snoc]
      split
      · simp only [claim, h.sources name]
      · exact h.sources name
  case comments =>
      intro name hname
      rw [hentry, hlog, noted_snoc]
      split
      · simp only [claim, h.comments name hname]
      · exact h.comments name hname

end Accounted

/-- The name of a row that code registers again with the first comment of the name. -/
def lateNames (r : Registry) (row : Row) : List String :=
  if r.finalized = false ∧ row.tag ∈ r.coded ∧ (r.tree.entryAt row.tag).comment = "" ∧
    row.comment ≠ "" then [row.tag] else []

/-- The names that a table of code comments late. -/
def lateComments (r : Registry) : List Row → List String
  | [] => []
  | row :: rest => r.lateNames row ++
    match (r.addNative row).value with
    | (r, .ok _) => r.lateComments rest
    | (_, .error _) => []

namespace Accounted
variable {late : List String} {r : Registry} (h : Accounted late r)
include h

theorem again {row : Row} (hf : r.finalized = false) (hcoded : row.tag ∈ r.coded) :
    Accounted (late ++ r.lateNames row)
      { r with tree := r.tree.insert (claim Source.native true row.comment) row.tag } := by
  obtain ⟨row', hrow', htag⟩ := List.mem_map.mp hcoded
  obtain ⟨e, he, rfl⟩ := List.mem_map.mp hrow'
  have hlogged : row.tag ∈ r.logged := List.mem_map.mpr ⟨e, (List.mem_filter.mp he).1, htag⟩
  have hentry := Tree.entryAt_insert h.consistent.tree (h.consistent.valid _ hlogged).proper
    (claim Source.native true row.comment)
  refine ⟨(insert_grows h.consistent hlogged _).consistent, h.kinds, h.rows, h.once, ?_, ?_⟩
  · intro name
    rw [hentry]
    split
    · rename_i hname
      have hnative := noted_source (hname ▸ hcoded)
      exact hnative.symm
    · exact h.sources name
  · intro name hname
    obtain ⟨hold, hnew⟩ := not_or.mp (mt List.mem_append.mpr hname)
    rw [hentry]
    split
    · rename_i heq
      subst heq
      rw [← h.comments _ hold]
      -- A late comment is excluded, so there is one already or none comes.
      have hlate : ¬ ((r.tree.entryAt row.tag).comment = "" ∧ row.comment ≠ "") := by
        intro hlate
        apply hnew
        rw [lateNames, if_pos ⟨hf, hcoded, hlate⟩]
        exact List.mem_singleton_self _
      simp only [claim]
      split
      · rename_i hempty
        rw [hempty]
        exact Classical.not_not.mp fun hne => hlate ⟨hempty, hne⟩
      · rfl
    · exact h.comments name hold

theorem addNative (row : Row) : Accounted (late ++ r.lateNames row) (r.addNative row).value.1 := by
  have hmono : late ⊆ late ++ r.lateNames row := List.subset_append_left _ _
  cases hf : r.finalized with
  | true =>
      rw [addNative_of_finalized hf]
      exact h.mono hmono
  | false =>
    have hwith : Accounted late (r.withSource Source.native .native) :=
      h.withSource fun _ => ⟨fun _ => rfl, fun _ => rfl⟩
    by_cases hv : Name.Valid row.tag
    · have hmem := (withSource_grows h.consistent Source.native .native).2
      have hflag := (withSource_finalized r Source.native .native).trans hf
      have hnames : r.lateNames row = (r.withSource Source.native .native).lateNames row := by
        unfold Registry.withSource
        split <;> rfl
      rw [addNative_of_valid hf hv, hnames]
      dsimp only
      split
      · rename_i hknown
        exact hwith.again hflag ((hwith.known_iff row.tag).mp hknown)
      · rename_i hnew
        have haccept := hwith.accept hmem hv fun _ hcoded => hnew ((hwith.known_iff _).mpr hcoded)
        exact haccept.mono (List.subset_append_left _ _)
    · obtain ⟨cause, hvalue⟩ := addNative_of_not_valid hf hv
      rw [hvalue]
      exact hwith.mono hmono

theorem addNatives (rows : List Row) :
    Accounted (late ++ r.lateComments rows) (r.addNatives rows).value.1 := by
  induction rows generalizing late r with
  | nil => exact h.mono (List.subset_append_left _ _)
  | cons row rows ih =>
      have hstep := h.addNative row
      rw [Registry.addNatives, Logged.value_bind, lateComments, ← List.append_assoc]
      cases hout : (r.addNative row).value with
      | mk r₁ answer =>
      rw [hout] at hstep
      cases answer with
      | ok tag => exact ih hstep
      | error cause => exact hstep.mono (List.subset_append_left _ _)

theorem loadRows {source : String} (hsource : source ∈ r.sources.map (·.name))
    (hother : source ≠ Source.native) (rows : List Row) :
    Accounted late (r.loadRows source rows).value.1 := by
  induction rows generalizing r with
  | nil => exact h
  | cons row rows ih =>
      by_cases hv : Name.Valid row.tag
      · have hstep := h.accept hsource hv fun heq => absurd heq hother
        rw [beq_eq_false_iff_ne.mpr hother] at hstep
        have hkept := (accept_grows h.consistent hsource false hv).sources source hsource
        rw [loadRows_of_valid r source hv]
        exact ih hstep hkept
      · rw [loadRows_of_not_valid r source hv]
        exact ih h hsource

theorem reindex : Accounted late r.reindex.value := by
  have hc := (reindex_grows h.consistent).consistent
  obtain ⟨common, table, heq, _⟩ := reindex_eq r
  rw [heq] at hc ⊢
  exact h.of_same hc rfl rfl (Tree.entryAt_reindex r.tree table.tags)

theorem load {source : String} {kind : SourceKind} (hother : source ≠ Source.native)
    (hkind : r.source? source = none → kind ≠ .native) (rows : List Row) :
    Accounted late (r.load source kind rows).value.1 := by
  have hwith : Accounted late (r.withSource source kind) :=
    h.withSource fun hs => iff_of_false (hkind hs) hother
  have hrows := hwith.loadRows (withSource_grows h.consistent source kind).2 hother rows
  rw [Registry.load, Logged.value_bind]
  cases hout : ((r.withSource source kind).loadRows source rows).value with
  | mk r₁ n =>
  rw [hout] at hrows
  dsimp only
  split
  · exact hrows.reindex
  · exact hrows

theorem loadLists {lists : List TagList} (hother : ∀ list ∈ lists, list.name ≠ Source.native) :
    Accounted late (r.loadLists lists).value := by
  induction lists generalizing r with
  | nil => exact h
  | cons list lists ih =>
      have hkind : SourceKind.tagList ≠ .native := by decide
      have hstep := h.load (hother list List.mem_cons_self) (fun _ => hkind) list.rows
      exact ih hstep fun x hx => hother x (List.mem_cons_of_mem _ hx)

theorem addRedirect (d : Redirect) : Accounted late (r.addRedirect d).value.1 := by
  have hc := (addRedirect_grows h.consistent d).consistent
  unfold Registry.addRedirect at hc ⊢
  split
  · exact h
  · split
    · exact h
    · rename_i hself hnew
      rw [if_neg hself, if_neg hnew] at hc
      exact h.of_same hc rfl rfl fun _ => rfl

theorem addRedirects (ds : List Redirect) : Accounted late (r.addRedirects ds).value := by
  induction ds generalizing r with
  | nil => exact h
  | cons d ds ih => exact ih (h.addRedirect d)

theorem finalize : Accounted late r.finalize.value := by
  unfold Registry.finalize
  split
  · exact h
  · have hgrows : Grows r { r with finalized := true } [] := h.consistent.of_eq rfl rfl rfl rfl rfl
    have hflag : Accounted late { r with finalized := true } :=
      h.of_same hgrows.consistent rfl rfl fun _ => rfl
    exact hflag.reindex

theorem request (name : String) : Accounted late (r.request name).value.1 := by
  have hc := (request_grows h.consistent name).consistent
  unfold Registry.request at hc ⊢
  rw [Logged.value_bind] at hc ⊢
  split
  · rename_i hreport
    rw [if_pos hreport] at hc
    exact h.of_same hc rfl rfl fun _ => rfl
  · exact h

end Accounted
end TagTree.Registry
