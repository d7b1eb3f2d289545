import TagTree.Proofs.Tree.Indices
import TagTree.Registry.Loading

/-!
# Consistent registries

The tree, the log, the sources and the index table of a registry belong
together: the registered names are the dotted prefixes of the logged ones, the
log and the rows of the sources tell the same story, and the indices are
positions in the table. Each operation is shown to keep this and to log exactly
the rows that it accepts.

`Consistent` lists the ties between the parts of a registry, with the
well-formedness of its tree among them. An operation is described by `Grows`,
which says that the registry after it is consistent and what it has in addition:
names in the log, and with them their dotted prefixes in the tree. Settings are
never changed. Since growing composes, an operation on a list needs the lemma
for one row only.

The single steps are changes of one part: another source, a tree with one name
more, another tree with the same names, a row noted in the log and under its
source. Changes of the redirects, of the reported names and of the flag are
covered once and for all, since none of the ties is about them.
-/
namespace TagTree.Registry

def logged (r : Registry) : List String := r.log.map (·.2.tag)

structure Consistent (r : Registry) : Prop where
  tree : r.tree.WellFormed
  names : ∀ m, (r.tree.position? m).isSome ↔ ∃ n ∈ r.logged, Name.DottedPrefix m n
  valid : ∀ n ∈ r.logged, Name.Valid n
  sourced : ∀ e ∈ r.log, e.1 ∈ r.sources.map (·.name)
  rows : ∀ s ∈ r.sources, ∀ row ∈ s.rows, row.tag ∈ r.logged
  indices : r.tree.IndexedBy r.table.tags
  fits : r.table.size ≤ IndexTable.capacity r.settings.maxBits

theorem empty_consistent (s : Settings) : (empty s).Consistent := by
  constructor
  case tree => exact Tree.empty_wellFormed
  case names => simp [empty, logged, Tree.position?, Tree.empty]
  case valid => simp [empty, logged]
  case sourced => simp [empty]
  case rows => simp [empty]
  case indices => exact Tree.empty_indexedBy _
  case fits => simp [empty, IndexTable.size]

/-- What an operation that accepts rows of the names `accepted` makes of a consistent registry. -/
structure Grows (r r' : Registry) (accepted : List String) : Prop where
  consistent : r'.Consistent
  settings : r'.settings = r.settings
  logged : ∀ n, n ∈ r'.logged ↔ n ∈ r.logged ∨ n ∈ accepted
  sources : ∀ s ∈ r.sources.map (·.name), s ∈ r'.sources.map (·.name)

theorem Grows.refl {r : Registry} (h : r.Consistent) : Grows r r [] :=
  ⟨h, rfl, by simp, fun _ hs => hs⟩

theorem Grows.trans {r r' r'' : Registry} {first second : List String} (h : Grows r r' first)
    (k : Grows r' r'' second) : Grows r r'' (first ++ second) := by
  refine ⟨k.consistent, k.settings.trans h.settings, ?_, fun s hs => k.sources s (h.sources s hs)⟩
  intro n
  rw [k.logged, h.logged, List.mem_append, or_assoc]

/-- An operation that accepts nothing leaves the registered names as they are. -/
theorem Grows.contains_eq {r r' : Registry} (h : r.Consistent) (k : Grows r r' []) (m : String) :
    r'.contains m = r.contains m := by
  apply Bool.eq_iff_iff.mpr
  rw [contains, contains, k.consistent.names, h.names]
  simp only [k.logged, List.not_mem_nil, or_false]

theorem mem_sources_iff {r : Registry} {name : String} :
    name ∈ r.sources.map (·.name) ↔ (r.source? name).isSome := by
  simp [source?]

theorem withSource_grows {r : Registry} (h : r.Consistent) (name : String) (kind : SourceKind) :
    Grows r (r.withSource name kind) [] ∧ name ∈ (r.withSource name kind).sources.map (·.name) := by
  unfold withSource
  split
  · rename_i hs
    exact ⟨.refl h, mem_sources_iff.mpr hs⟩
  · refine ⟨⟨?_, rfl, by simp [logged], ?_⟩, by simp⟩
    · constructor
      case tree => exact h.tree
      case names => exact h.names
      case valid => exact h.valid
      case sourced =>
          intro e he
          have hold := h.sourced e he
          rw [List.map_append]
          exact List.mem_append_left _ hold
      case rows =>
          intro s hs row hrow
          rcases List.mem_append.mp hs with hs | hs
          · exact h.rows s hs row hrow
          · rw [List.mem_singleton.mp hs] at hrow
            cases hrow
      case indices => exact h.indices
      case fits => exact h.fits
    · intro s hs
      rw [List.map_append]
      exact List.mem_append_left _ hs

theorem insert_registered {r : Registry} (h : r.Consistent) {name : String} (hname : Name.Valid name)
    (f : Entry → Entry) (m : String) : ((r.tree.insert f name).position? m).isSome ↔
      ∃ n, (n ∈ r.logged ∨ n = name) ∧ Name.DottedPrefix m n := by
  rw [Tree.insert_names h.tree hname.proper, h.names]
  constructor
  · rintro (⟨n, hn, hm⟩ | hm)
    · exact ⟨n, .inl hn, hm⟩
    · exact ⟨name, .inr rfl, hm⟩
  · rintro ⟨n, hn | rfl, hm⟩
    · exact .inl ⟨n, hn, hm⟩
    · exact .inr hm

theorem withTree_grows {r : Registry} {t : Tree} (h : r.Consistent) (htree : t.WellFormed)
    (hnames : ∀ m, (t.position? m).isSome ↔ (r.tree.position? m).isSome)
    (hindices : t.IndexedBy r.table.tags) : Grows r { r with tree := t } [] := by
  refine ⟨?_, rfl, by simp [logged], fun _ hs => hs⟩
  constructor
  case tree => exact htree
  case names =>
      intro m
      rw [hnames]
      exact h.names m
  case valid => exact h.valid
  case sourced => exact h.sourced
  case rows => exact h.rows
  case indices => exact hindices
  case fits => exact h.fits

theorem insert_grows {r : Registry} (h : r.Consistent) {name : String} (hlog : name ∈ r.logged)
    (f : Entry → Entry) : Grows r { r with tree := r.tree.insert f name } [name] := by
  have hvalid := h.valid name hlog
  have hnames : ∀ m, ((r.tree.insert f name).position? m).isSome ↔
      (r.tree.position? m).isSome := by
    intro m
    rw [insert_registered h hvalid, h.names]
    constructor
    · rintro ⟨n, hn | rfl, hm⟩
      · exact ⟨n, hn, hm⟩
      · exact ⟨_, hlog, hm⟩
    · rintro ⟨n, hn, hm⟩
      exact ⟨n, .inl hn, hm⟩
  obtain ⟨hc, hs, hl, hsources⟩ := withTree_grows h (Tree.insert_wellFormed h.tree hvalid.proper f)
    hnames (h.indices.insert h.tree hvalid.proper f)
  refine ⟨hc, hs, ?_, hsources⟩
  intro n
  rw [hl, List.mem_singleton, List.mem_nil_iff, or_false]
  constructor
  · exact .inl
  · rintro (hn | rfl)
    · exact hn
    · exact hlog

theorem record_grows {r : Registry} {t : Tree} (h : r.Consistent) {source : String}
    (hsource : source ∈ r.sources.map (·.name)) {row : Row} (hrow : Name.Valid row.tag)
    (htree : t.WellFormed) (hnames : ∀ m, (t.position? m).isSome ↔
      ∃ n, (n ∈ r.logged ∨ n = row.tag) ∧ Name.DottedPrefix m n)
    (hindices : t.IndexedBy r.table.tags) :
    Grows r (record { r with tree := t } source row) [row.tag] := by
  have hlogged : (record { r with tree := t } source row).logged = r.logged ++ [row.tag] := by
    simp [record, logged]
  have hsources : (record { r with tree := t } source row).sources.map (·.name) =
      r.sources.map (·.name) := by
    rw [record, List.map_map]
    refine List.map_congr_left ?_
    intro s _
    simp only [Function.comp_apply]
    split <;> rfl
  refine ⟨?_, rfl, by simp [hlogged], by simp [hsources]⟩
  constructor
  case tree => exact htree
  case names =>
      intro m
      rw [hlogged]
      simp only [List.mem_append, List.mem_singleton]
      exact hnames m
  case valid =>
      intro n hn
      rw [hlogged] at hn
      rcases List.mem_append.mp hn with hn | hn
      · exact h.valid n hn
      · exact List.mem_singleton.mp hn ▸ hrow
  case sourced =>
      intro e he
      rw [hsources]
      rcases List.mem_append.mp he with he | he
      · exact h.sourced e he
      · exact List.mem_singleton.mp he ▸ hsource
  case rows =>
      intro s hs x hx
      rw [hlogged]
      obtain ⟨s', hs', rfl⟩ := List.mem_map.mp hs
      have hold : x ∈ s'.rows → x.tag ∈ r.logged ++ [row.tag] :=
        fun hx => List.mem_append_left _ (h.rows s' hs' x hx)
      split at hx
      · rcases List.mem_append.mp hx with hx | hx
        · exact hold hx
        · simp [List.mem_singleton.mp hx]
      · exact hold hx
  case indices => exact hindices
  case fits => exact h.fits

/-- Register the name of a row and note the row. -/
def accept (r : Registry) (source : String) (native : Bool) (row : Row) : Registry :=
  { r with tree := r.tree.insert (claim source native row.comment) row.tag }.record source row

theorem accept_grows {r : Registry} (h : r.Consistent) {source : String}
    (hsource : source ∈ r.sources.map (·.name)) (native : Bool) {row : Row}
    (hrow : Name.Valid row.tag) : Grows r (r.accept source native row) [row.tag] :=
  record_grows h hsource hrow (Tree.insert_wellFormed h.tree hrow.proper _)
    (insert_registered h hrow _) (h.indices.insert h.tree hrow.proper _)

theorem reindex_eq (r : Registry) : ∃ common table,
    r.reindex.value = { r with common, table, tree := r.tree.reindex table.tags } ∧
      table.size ≤ IndexTable.capacity r.settings.maxBits :=
  ⟨_, _, rfl, List.length_take_le ..⟩

theorem finalize_finalized (r : Registry) : r.finalize.value.finalized = true := by
  unfold finalize
  split
  · assumption
  · obtain ⟨common, table, heq, _⟩ := reindex_eq { r with finalized := true }
    rw [Logged.value_bind]
    exact congrArg Registry.finalized heq

theorem reindex_grows {r : Registry} (h : r.Consistent) : Grows r r.reindex.value [] := by
  obtain ⟨common, table, heq, hfits⟩ := reindex_eq r
  have hshape := Tree.reindex_sameShape r.tree table.tags
  rw [heq]
  refine ⟨?_, rfl, by simp [logged], fun _ hs => hs⟩
  constructor
  case tree => exact hshape.wellFormed h.tree
  case names =>
      intro m
      rw [hshape.position?]
      exact h.names m
  case valid => exact h.valid
  case sourced => exact h.sourced
  case rows => exact h.rows
  case indices => exact Tree.reindex_indexedBy h.tree _
  case fits => exact hfits

/-- Changes of the redirects, the reported names or the flag do not matter. -/
theorem Consistent.of_eq {r r' : Registry} (h : r.Consistent) (hs : r'.settings = r.settings)
    (ht : r'.tree = r.tree) (hl : r'.log = r.log) (hso : r'.sources = r.sources)
    (htable : r'.table = r.table) : Grows r r' [] := by
  have hlogged : r'.logged = r.logged := by rw [logged, hl, logged]
  refine ⟨?_, hs, by simp [hlogged], by simp [hso]⟩
  constructor
  case tree => exact ht ▸ h.tree
  case names => simpa only [ht, hlogged] using h.names
  case valid => simpa only [hlogged] using h.valid
  case sourced => simpa only [hl, hso] using h.sourced
  case rows => simpa only [hso, hlogged] using h.rows
  case indices => simpa only [ht, htable] using h.indices
  case fits => simpa only [htable, hs] using h.fits

end TagTree.Registry
