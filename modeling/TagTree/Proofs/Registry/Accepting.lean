import TagTree.Proofs.Registry.Consistent

/-!
# What the operations accept

Which names an operation accepts depends on the names and on whether the
registry is finalized, and on nothing else. Every operation keeps a registry
consistent and logs exactly what it accepts; making a registry again from its
log loses none of it.

For every operation there is an equation for each of its cases, and from these a
lemma that the operation grows the registry by the names it accepts. Rows of a
list are accepted one by one if their names are valid. Code accepts nothing once
the registry is finalized, and a table of code accepts its definitions up to the
first that is refused, which it answers with its first fault.

A rebuild starts from a registry without tags that keeps the names of its
sources. There each logged row has a source that is known and a name that is
valid, so it is accepted when its turn comes, and the log in the end is the log
that was replayed. Growing twice is growing by both lists of names, which is all
that the proofs about rows in a list need.
-/
namespace TagTree.Registry

def validNames (rows : List Row) : List String :=
  (rows.map (·.tag)).filter fun n => decide (Name.Valid n)

theorem nameError?_eq_none {name : String} : nameError? name = none ↔ Name.Valid name := by
  unfold nameError?
  split
  · rename_i he
    simp [he, Name.Valid, Name.fault?]
  · simp [Name.Valid]

theorem insertName_of_valid (r : Registry) {row : Row} (h : Name.Valid row.tag) (source : String)
    (native : Bool) : r.insertName row.tag source native row.comment =
      .ok { r with tree := r.tree.insert (claim source native row.comment) row.tag } := by
  rw [insertName, nameError?_eq_none.mpr h]

theorem insertName_of_not_valid (r : Registry) {row : Row} (h : ¬ Name.Valid row.tag)
    (source : String) (native : Bool) :
    ∃ cause, r.insertName row.tag source native row.comment = .error cause := by
  cases he : nameError? row.tag with
  | none => exact absurd (nameError?_eq_none.mp he) h
  | some cause => exact ⟨cause, by rw [insertName, he]⟩

theorem loadRows_of_valid (r : Registry) (source : String) {row : Row} (h : Name.Valid row.tag)
    (rows : List Row) : (r.loadRows source (row :: rows)).value =
      (((r.accept source false row).loadRows source rows).value.1,
        ((r.accept source false row).loadRows source rows).value.2 + 1) := by
  rw [loadRows, insertName_of_valid r h]
  rfl

theorem loadRows_of_not_valid (r : Registry) (source : String) {row : Row}
    (h : ¬ Name.Valid row.tag) (rows : List Row) :
    (r.loadRows source (row :: rows)).value = (r.loadRows source rows).value := by
  obtain ⟨cause, hcause⟩ := insertName_of_not_valid r h source false
  rw [loadRows, hcause]
  rfl

theorem loadRows_of_none (r : Registry) (source : String) {rows : List Row}
    (h : validNames rows = []) : (r.loadRows source rows).value = (r, 0) := by
  induction rows with
  | nil => rfl
  | cons row rows ih =>
      by_cases hv : Name.Valid row.tag
      · simp [validNames, hv] at h
      · rw [loadRows_of_not_valid r source hv]
        exact ih (by simpa [validNames, hv] using h)

theorem loadRows_grows {r : Registry} (h : r.Consistent) {source : String}
    (hsource : source ∈ r.sources.map (·.name)) (rows : List Row) :
    Grows r (r.loadRows source rows).value.1 (validNames rows) ∧
      (r.loadRows source rows).value.2 = (validNames rows).length := by
  induction rows generalizing r with
  | nil => exact ⟨.refl h, rfl⟩
  | cons row rows ih =>
      by_cases hv : Name.Valid row.tag
      · have hstep := accept_grows h hsource false hv
        have hnames : validNames (row :: rows) = [row.tag] ++ validNames rows := by
          simp [validNames, hv]
        obtain ⟨hrest, hcount⟩ := ih hstep.consistent (hstep.sources source hsource)
        rw [loadRows_of_valid r source hv, hnames]
        exact ⟨hstep.trans hrest, by simp [hcount]⟩
      · have hnames : validNames (row :: rows) = validNames rows := by simp [validNames, hv]
        rw [loadRows_of_not_valid r source hv, hnames]
        exact ih h hsource

theorem loadRows_finalized (r : Registry) (source : String) (rows : List Row) :
    (r.loadRows source rows).value.1.finalized = r.finalized := by
  induction rows generalizing r with
  | nil => rfl
  | cons row rows ih =>
      by_cases hv : Name.Valid row.tag
      · rw [loadRows_of_valid r source hv]
        exact ih (r.accept source false row)
      · rw [loadRows_of_not_valid r source hv]
        exact ih r

theorem withSource_of_known {r : Registry} {name : String} (h : (r.source? name).isSome)
    (kind : SourceKind) : r.withSource name kind = r := if_pos h

theorem withSource_finalized (r : Registry) (name : String) (kind : SourceKind) :
    (r.withSource name kind).finalized = r.finalized := by
  unfold withSource
  split <;> rfl

theorem withSource_tree (r : Registry) (name : String) (kind : SourceKind) :
    (r.withSource name kind).tree = r.tree := by
  unfold withSource
  split <;> rfl

theorem loadRows_withSource_finalized (r : Registry) (source : String) (kind : SourceKind)
    (rows : List Row) :
    ((r.withSource source kind).loadRows source rows).value.1.finalized = r.finalized := by
  rw [loadRows_finalized, withSource_finalized]

theorem load_grows {r : Registry} (h : r.Consistent) (source : String) (kind : SourceKind)
    (rows : List Row) : Grows r (r.load source kind rows).value.1 (validNames rows) ∧
      (r.load source kind rows).value.2 = (validNames rows).length ∧
      (r.load source kind rows).value.1.finalized = r.finalized := by
  obtain ⟨hwith, hmem⟩ := withSource_grows h source kind
  obtain ⟨hrows, hcount⟩ := loadRows_grows hwith.consistent hmem rows
  have hloaded := hwith.trans hrows
  have hflag := loadRows_withSource_finalized r source kind rows
  rw [List.nil_append] at hloaded
  rw [load, Logged.value_bind]
  cases hout : ((r.withSource source kind).loadRows source rows).value with
  | mk r' n =>
  rw [hout] at hloaded hcount hflag
  dsimp only at hloaded hcount hflag ⊢
  split
  · have hindexed := hloaded.trans (reindex_grows hloaded.consistent)
    rw [List.append_nil] at hindexed
    exact ⟨hindexed, hcount, hflag⟩
  · exact ⟨hloaded, hcount, hflag⟩

theorem load_of_unfinalized {r : Registry} (hf : r.finalized = false) (source : String)
    (kind : SourceKind) (rows : List Row) : (r.load source kind rows).value =
      ((r.withSource source kind).loadRows source rows).value := by
  have hflag := (loadRows_withSource_finalized r source kind rows).trans hf
  rw [load, Logged.value_bind]
  cases hout : ((r.withSource source kind).loadRows source rows).value with
  | mk r' n =>
  rw [hout] at hflag
  dsimp only at hflag ⊢
  rw [if_neg (by simp [hflag])]
  rfl

theorem load_of_finalized {r : Registry} (hf : r.finalized = true) (source : String)
    (kind : SourceKind) (rows : List Row) : (r.load source kind rows).value.1 =
      let loaded := ((r.withSource source kind).loadRows source rows).value
      if 0 < loaded.2 then loaded.1.reindex.value else loaded.1 := by
  have hflag := (loadRows_withSource_finalized r source kind rows).trans hf
  rw [load, Logged.value_bind]
  cases hout : ((r.withSource source kind).loadRows source rows).value with
  | mk r' n =>
  rw [hout] at hflag
  dsimp only at hflag ⊢
  by_cases hn : 0 < n <;> simp [hflag, hn]

theorem addNative_of_valid {r : Registry} (hf : r.finalized = false) {row : Row}
    (hv : Name.Valid row.tag) : (r.addNative row).value =
      let r := r.withSource Source.native .native
      (if (r.source? Source.native).any fun s => s.rows.any (·.tag == row.tag) then
        { r with tree := r.tree.insert (claim Source.native true row.comment) row.tag }
      else r.accept Source.native true row, .ok ⟨row.tag⟩) := by
  rw [addNative, if_neg (by simp [hf])]
  dsimp only
  rw [insertName_of_valid _ hv]
  rfl

theorem addNative_answers {r : Registry} (hf : r.finalized = false) {row : Row}
    (hv : Name.Valid row.tag) : (r.addNative row).value.2 = .ok ⟨row.tag⟩ ∧
      (r.addNative row).value.1.finalized = false := by
  have hflag := (withSource_finalized r Source.native .native).trans hf
  rw [addNative_of_valid hf hv]
  refine ⟨rfl, ?_⟩
  dsimp only
  split <;> exact hflag

theorem addNative_accepts {r : Registry} (h : r.Consistent) (hf : r.finalized = false) {row : Row}
    (hv : Name.Valid row.tag) : Grows r (r.addNative row).value.1 [row.tag] ∧
      (r.addNative row).value.2 = .ok ⟨row.tag⟩ ∧ (r.addNative row).value.1.finalized = false := by
  obtain ⟨hwith, hmem⟩ := withSource_grows h Source.native .native
  refine ⟨?_, addNative_answers hf hv⟩
  rw [addNative_of_valid hf hv]
  generalize r.withSource Source.native .native = r₁ at hwith hmem
  dsimp only
  split
  · rename_i hknown
    obtain ⟨s, hs, hrow⟩ := (Option.any_eq_true _ _).mp hknown
    obtain ⟨row', hrow', htag⟩ := List.any_eq_true.mp hrow
    have hlog : row.tag ∈ r₁.logged := by
      rw [← eq_of_beq htag]
      exact hwith.consistent.rows s (List.mem_of_find?_eq_some hs) row' hrow'
    exact hwith.trans (insert_grows hwith.consistent hlog (claim Source.native true row.comment))
  · exact hwith.trans (accept_grows hwith.consistent hmem true hv)

theorem addNative_of_fault {r : Registry} (hf : r.finalized = false) {row : Row}
    {cause : RegistryError} (hcause : nameError? row.tag = some cause) :
    (r.addNative row).value = (r.withSource Source.native .native, .error cause) := by
  have hinsert : (r.withSource Source.native .native).insertName row.tag Source.native true
      row.comment = .error cause := by
    rw [insertName, hcause]
  rw [addNative, if_neg (by simp [hf])]
  dsimp only
  rw [hinsert]
  rfl

theorem addNative_of_not_valid {r : Registry} (hf : r.finalized = false) {row : Row}
    (hv : ¬ Name.Valid row.tag) : ∃ cause, (r.addNative row).value =
      (r.withSource Source.native .native, .error cause) := by
  cases hcause : nameError? row.tag with
  | none => exact absurd (nameError?_eq_none.mp hcause) hv
  | some cause => exact ⟨cause, addNative_of_fault hf hcause⟩

theorem addNative_of_finalized {r : Registry} (hf : r.finalized = true) (row : Row) :
    (r.addNative row).value = (r, .error (.nativeTagsFinalized row.tag)) := by
  rw [addNative, if_pos hf]
  rfl

theorem addNative_of_refused {r : Registry} {row : Row}
    (hbad : ¬ (r.finalized = false ∧ Name.Valid row.tag)) : ∃ cause, (r.addNative row).value =
      (if r.finalized then r else r.withSource Source.native .native, .error cause) := by
  by_cases hf : r.finalized = true
  · rw [addNative_of_finalized hf, if_pos hf]
    exact ⟨_, rfl⟩
  · have hopen : r.finalized = false := by simpa using hf
    rw [if_neg hf]
    exact addNative_of_not_valid hopen fun hv => hbad ⟨hopen, hv⟩

theorem addNative_refuses {r : Registry} (h : r.Consistent) {row : Row}
    (hbad : ¬ (r.finalized = false ∧ Name.Valid row.tag)) : Grows r (r.addNative row).value.1 [] ∧
      (∃ cause, (r.addNative row).value.2 = .error cause) ∧
      (r.addNative row).value.1.finalized = r.finalized := by
  obtain ⟨cause, hvalue⟩ := addNative_of_refused hbad
  rw [hvalue]
  dsimp only
  split
  · exact ⟨.refl h, ⟨cause, rfl⟩, rfl⟩
  · exact ⟨(withSource_grows h Source.native .native).1, ⟨cause, rfl⟩, withSource_finalized ..⟩

/-- The names that a table of code accepts: all up to the first that is refused. -/
def nativeNames (finalized : Bool) (rows : List Row) : List String :=
  if finalized then [] else (rows.map (·.tag)).takeWhile fun n => decide (Name.Valid n)

theorem nativeNames_nil (finalized : Bool) : nativeNames finalized [] = [] := by
  cases finalized <;> rfl

theorem nativeNames_cons (finalized : Bool) (row : Row) (rows : List Row) :
    nativeNames finalized (row :: rows) =
      if finalized = false ∧ Name.Valid row.tag then row.tag :: nativeNames finalized rows
      else [] := by
  cases finalized with
  | true => simp [nativeNames]
  | false => by_cases hv : Name.Valid row.tag <;> simp [nativeNames, hv]

theorem addNatives_of_accepted {r : Registry} (hf : r.finalized = false) {row : Row}
    (hv : Name.Valid row.tag) (rows : List Row) : (r.addNatives (row :: rows)).value =
      ((r.addNative row).value.1.addNatives rows).value := by
  have hok := (addNative_answers hf hv).1
  rw [addNatives, Logged.value_bind]
  cases hout : (r.addNative row).value with
  | mk r₁ answer =>
  rw [hout] at hok
  rw [show answer = .ok ⟨row.tag⟩ from hok]

theorem addNatives_of_refused {r : Registry} {row : Row}
    (hbad : ¬ (r.finalized = false ∧ Name.Valid row.tag)) (rows : List Row) :
    (r.addNatives (row :: rows)).value.1 = (r.addNative row).value.1 := by
  obtain ⟨cause, hvalue⟩ := addNative_of_refused hbad
  rw [addNatives, Logged.value_bind, hvalue]
  rfl

theorem addNatives_answer {r : Registry} (hf : r.finalized = false) (rows : List Row) :
    (r.addNatives rows).value.2 =
      match rows.findSome? fun row => nameError? row.tag with
      | some cause => .error cause
      | none => .ok () := by
  induction rows generalizing r with
  | nil => rfl
  | cons row rows ih =>
      rw [List.findSome?_cons]
      cases hcause : nameError? row.tag with
      | none =>
          have hv := nameError?_eq_none.mp hcause
          rw [addNatives_of_accepted hf hv, ih (addNative_answers hf hv).2]
      | some cause =>
          rw [addNatives, Logged.value_bind, addNative_of_fault hf hcause]
          rfl

theorem addNatives_grows {r : Registry} (h : r.Consistent) (rows : List Row) :
    Grows r (r.addNatives rows).value.1 (nativeNames r.finalized rows) ∧
      (r.addNatives rows).value.1.finalized = r.finalized := by
  induction rows generalizing r with
  | nil =>
      rw [nativeNames_nil]
      exact ⟨.refl h, rfl⟩
  | cons row rows ih =>
      rw [nativeNames_cons]
      by_cases hgood : r.finalized = false ∧ Name.Valid row.tag
      · obtain ⟨hstep, _, hflag⟩ := addNative_accepts h hgood.1 hgood.2
        obtain ⟨hrest, hend⟩ := ih hstep.consistent
        rw [hflag, ← hgood.1] at hrest hend
        rw [addNatives_of_accepted hgood.1 hgood.2, if_pos hgood]
        exact ⟨hstep.trans hrest, hend⟩
      · obtain ⟨hstep, _, hflag⟩ := addNative_refuses h hgood
        rw [addNatives_of_refused hgood, if_neg hgood]
        exact ⟨hstep, hflag⟩

theorem addNative_grows {r : Registry} (h : r.Consistent) (row : Row) :
    Grows r (r.addNative row).value.1 (nativeNames r.finalized [row]) := by
  rw [nativeNames_cons]
  split
  · rename_i hgood
    rw [nativeNames_nil]
    exact (addNative_accepts h hgood.1 hgood.2).1
  · rename_i hbad
    exact (addNative_refuses h hbad).1

theorem addRedirect_grows {r : Registry} (h : r.Consistent) (d : Redirect) :
    Grows r (r.addRedirect d).value.1 [] := by
  unfold addRedirect
  split
  · exact .refl h
  · split
    · exact .refl h
    · exact h.of_eq rfl rfl rfl rfl rfl

theorem addRedirects_grows {r : Registry} (h : r.Consistent) (ds : List Redirect) :
    Grows r (r.addRedirects ds).value [] := by
  induction ds generalizing r with
  | nil => exact .refl h
  | cons d ds ih =>
      have hstep := addRedirect_grows h d
      exact hstep.trans (ih hstep.consistent)

theorem finalize_grows {r : Registry} (h : r.Consistent) : Grows r r.finalize.value [] := by
  unfold finalize
  split
  · exact .refl h
  · have hflag : Grows r { r with finalized := true } [] := h.of_eq rfl rfl rfl rfl rfl
    exact hflag.trans (reindex_grows hflag.consistent)

theorem cleared_consistent (r : Registry) : r.cleared.Consistent := by
  constructor
  case tree => exact Tree.empty_wellFormed
  case names => simp [cleared, empty, logged, Tree.position?, Tree.empty]
  case valid => simp [cleared, empty, logged]
  case sourced => simp [cleared, empty]
  case rows =>
      intro s hs row hrow
      obtain ⟨s', _, rfl⟩ := List.mem_map.mp hs
      cases hrow
  case indices => exact Tree.empty_indexedBy _
  case fits => simp [cleared, empty, IndexTable.size]

theorem cleared_sources (r : Registry) : r.cleared.sources.map (·.name) = r.sources.map (·.name) := by
  simp [cleared]

theorem Consistent.replayable {r : Registry} (h : r.Consistent) :
    ∀ e ∈ r.log, e.1 ∈ r.cleared.sources.map (·.name) ∧ Name.Valid e.2.tag := by
  intro e he
  rw [cleared_sources]
  exact ⟨h.sourced e he, h.valid _ (List.mem_map_of_mem he)⟩

theorem replayRow_grows {r : Registry} (h : r.Consistent) (hf : r.finalized = false)
    {source : String} (hsource : source ∈ r.sources.map (·.name)) {row : Row}
    (hv : Name.Valid row.tag) : Grows r (r.replayRow source row).value [row.tag] ∧
      (r.replayRow source row).value.finalized = false := by
  obtain ⟨s, hs⟩ := Option.isSome_iff_exists.mp (mem_sources_iff.mp hsource)
  rw [replayRow, hs]
  dsimp only
  split
  · obtain ⟨hstep, hok, hflag⟩ := addNative_accepts h hf hv
    rw [Logged.value_bind]
    cases hout : (r.addNative row).value with
    | mk r₁ answer =>
    rw [hout] at hstep hok hflag
    rw [show answer = .ok ⟨row.tag⟩ from hok]
    exact ⟨hstep, hflag⟩
  · obtain ⟨hstep, _, hflag⟩ := load_grows h source s.kind [row]
    have hnames : validNames [row] = [row.tag] := by simp [validNames, hv]
    rw [hnames] at hstep
    exact ⟨hstep, hflag.trans hf⟩

theorem replay_grows {r : Registry} (h : r.Consistent) (hf : r.finalized = false)
    {log : List (String × Row)} (hlog : ∀ e ∈ log, e.1 ∈ r.sources.map (·.name) ∧ Name.Valid e.2.tag) :
    Grows r (r.replay log).value (log.map (·.2.tag)) := by
  induction log generalizing r with
  | nil => exact .refl h
  | cons e log ih =>
      have he := hlog e List.mem_cons_self
      obtain ⟨hstep, hflag⟩ := replayRow_grows h hf he.1 he.2
      have hrest := ih hstep.consistent hflag fun x hx =>
        have hx := hlog x (List.mem_cons_of_mem _ hx)
        ⟨hstep.sources _ hx.1, hx.2⟩
      exact hstep.trans hrest

theorem replay_cleared_grows {r : Registry} (h : r.Consistent) :
    Grows r (r.cleared.replay r.log).value [] := by
  have hreplay := replay_grows (cleared_consistent r) rfl h.replayable
  refine ⟨hreplay.consistent, hreplay.settings, ?_, ?_⟩
  · intro n
    rw [hreplay.logged]
    simp [cleared, empty, logged]
  · intro s hs
    exact hreplay.sources s (by rwa [cleared_sources])

/-- A registry that is made again from its log accepts every logged row and no other. -/
theorem rebuild_grows {r : Registry} (h : r.Consistent) : Grows r r.rebuild.value [] := by
  have hfresh := replay_cleared_grows h
  unfold rebuild
  rw [Logged.value_bind]
  split
  · exact hfresh.trans (finalize_grows hfresh.consistent)
  · exact hfresh

end TagTree.Registry
