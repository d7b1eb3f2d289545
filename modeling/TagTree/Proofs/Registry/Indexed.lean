import TagTree.Proofs.Registry.Requesting
import TagTree.Proofs.Wire.IndexTable

/-!
# The index that is due

The registered tags and the settings determine the index of a finalized
registry, and a registry that is not finalized has none. Rows by themselves
leave the index as it was, so an operation that lets rows into a finalized
registry has to make the index again. Every registry of a run has the index that
is due.

What is due is a function of the registered tags and the settings: the common
tags that are found, and the table made of all tags with these in front. Two
consistent registries with the same names, flag and settings of the index
therefore have the same index, whatever their nodes look like. This is used for
peers, for rebuilds and for rivals of a registry.

The flag decides whether an index is due. Finalizing sets it, a rebuild keeps it
and nothing clears it, so a history that finalizes at some point ends finalized,
and no other does. Operations on rows keep everything but rows, which is enough
before the flag is set; afterwards loading makes the index again, and code is
refused.
-/
namespace TagTree.Registry

/-- The commonly replicated tags that there should be. -/
def dueCommon (r : Registry) : List Tag :=
  if r.finalized then r.settings.common.filterMap r.find? else []

/-- The tags that the table should list. -/
def dueTags (r : Registry) : List Tag :=
  if r.finalized then
    (IndexTable.ordered r.tree.tags r.dueCommon).take (IndexTable.capacity r.settings.maxBits)
  else []

structure Indexed (r : Registry) : Prop where
  common : r.common = r.dueCommon
  table : r.table.tags = r.dueTags
  /-- No tag of the table was left out when indices were given to the nodes. -/
  carried : ∀ t ∈ r.table.tags, ((r.tree.node? t.name).bind (·.index)).isSome

theorem findCommon_value (r : Registry) (names : List String) :
    (r.findCommon names).value = names.filterMap r.find? := by
  induction names with
  | nil => rfl
  | cons name names ih =>
      rw [findCommon, List.filterMap_cons]
      cases r.find? name with
      | none => exact ih
      | some tag => exact congrArg (tag :: ·) ih

structure Alike (r r' : Registry) : Prop where
  left : r.Consistent
  right : r'.Consistent
  contains : ∀ m, r'.contains m = r.contains m
  finalized : r'.finalized = r.finalized
  common : r'.settings.common = r.settings.common
  maxBits : r'.settings.maxBits = r.settings.maxBits

theorem Consistent.mem_tags {r : Registry} (h : r.Consistent) {t : Tag} :
    t ∈ r.tree.tags ↔ r.contains t.name := h.tree.mem_tags

theorem Consistent.dueCommon_subset {r : Registry} (hc : r.Consistent) :
    r.dueCommon ⊆ r.tree.tags := by
  intro t ht
  unfold dueCommon at ht
  split at ht
  · obtain ⟨name, _, hname⟩ := List.mem_filterMap.mp ht
    rw [hc.find?_eq] at hname
    split at hname
    · rename_i hcontains
      cases hname
      exact hc.mem_tags.mpr hcontains
    · cases hname
  · cases ht

namespace Alike
variable {r r' : Registry} (h : Alike r r')
include h

theorem find? : r'.find? = r.find? := by
  funext name
  rw [h.left.find?_eq, h.right.find?_eq, h.contains]

theorem dueCommon : r'.dueCommon = r.dueCommon := by
  rw [Registry.dueCommon, Registry.dueCommon, h.finalized, h.common, h.find?]

theorem dueTags : r'.dueTags = r.dueTags := by
  have hmem : ∀ t, t ∈ r'.tree.tags ↔ t ∈ r.tree.tags := by
    intro t
    rw [h.left.mem_tags, h.right.mem_tags, h.contains]
  rw [Registry.dueTags, Registry.dueTags, h.finalized, h.maxBits, h.dueCommon,
    IndexTable.ordered_congr hmem]

theorem table (hi : r.Indexed) (hi' : r'.Indexed) : r'.table = r.table :=
  congrArg IndexTable.mk (hi'.table.trans (h.dueTags.trans hi.table.symm))

end Alike

/-- Registries that differ at most in their rows and in what these registered. -/
structure SameButRows (r r' : Registry) : Prop where
  settings : r'.settings = r.settings
  redirects : r'.redirects = r.redirects
  common : r'.common = r.common
  table : r'.table = r.table
  finalized : r'.finalized = r.finalized

namespace SameButRows

theorem refl (r : Registry) : SameButRows r r := ⟨rfl, rfl, rfl, rfl, rfl⟩

theorem trans {r r' r'' : Registry} (h : SameButRows r r') (k : SameButRows r' r'') :
    SameButRows r r'' :=
  ⟨k.settings.trans h.settings, k.redirects.trans h.redirects, k.common.trans h.common,
    k.table.trans h.table, k.finalized.trans h.finalized⟩

theorem withSource (r : Registry) (name : String) (kind : SourceKind) :
    SameButRows r (r.withSource name kind) := by
  unfold Registry.withSource
  split <;> exact ⟨rfl, rfl, rfl, rfl, rfl⟩

theorem accept (r : Registry) (source : String) (native : Bool) (row : Row) :
    SameButRows r (r.accept source native row) := by
  unfold Registry.accept record
  exact ⟨rfl, rfl, rfl, rfl, rfl⟩

theorem loadRows (r : Registry) (source : String) (rows : List Row) :
    SameButRows r (r.loadRows source rows).value.1 := by
  induction rows generalizing r with
  | nil => exact .refl r
  | cons row rows ih =>
      by_cases hv : Name.Valid row.tag
      · rw [loadRows_of_valid r source hv]
        exact (accept r source false row).trans (ih _)
      · rw [loadRows_of_not_valid r source hv]
        exact ih r

theorem load {r : Registry} (hf : r.finalized = false) (source : String) (kind : SourceKind)
    (rows : List Row) : SameButRows r (r.load source kind rows).value.1 := by
  rw [load_of_unfinalized hf]
  exact (withSource r source kind).trans (loadRows _ source rows)

theorem addNative (r : Registry) (row : Row) : SameButRows r (r.addNative row).value.1 := by
  have hwith := withSource r Source.native .native
  cases hf : r.finalized with
  | true =>
      rw [addNative_of_finalized hf]
      exact .refl r
  | false =>
    by_cases hv : Name.Valid row.tag
    · rw [addNative_of_valid hf hv]
      dsimp only
      split
      · exact hwith.trans ⟨rfl, rfl, rfl, rfl, rfl⟩
      · exact hwith.trans (accept _ Source.native true row)
    · obtain ⟨cause, hvalue⟩ := addNative_of_not_valid hf hv
      rw [hvalue]
      exact hwith

theorem addNatives {r : Registry} (hf : r.finalized = false) (rows : List Row) :
    SameButRows r (r.addNatives rows).value.1 := by
  induction rows generalizing r with
  | nil => exact .refl r
  | cons row rows ih =>
      have hstep := addNative r row
      by_cases hv : Name.Valid row.tag
      · rw [addNatives_of_accepted hf hv]
        exact hstep.trans (ih (hstep.finalized.trans hf))
      · rw [addNatives_of_refused fun hgood => hv hgood.2]
        exact hstep

theorem replayRow {r : Registry} (hf : r.finalized = false) (source : String) (row : Row) :
    SameButRows r (r.replayRow source row).value := by
  unfold Registry.replayRow
  split
  · exact .refl r
  · rename_i s _
    split
    · have hstep := addNative r row
      rw [Logged.value_bind]
      cases hout : (r.addNative row).value with
      | mk r₁ answer =>
      rw [hout] at hstep
      cases answer with
      | ok tag => exact hstep
      | error cause => exact hstep
    · exact load hf source s.kind [row]

theorem replay {r : Registry} (hf : r.finalized = false) (log : List (String × Row)) :
    SameButRows r (r.replay log).value := by
  induction log generalizing r with
  | nil => exact .refl r
  | cons e log ih =>
      have hstep := replayRow hf e.1 e.2
      exact hstep.trans (ih (hstep.finalized.trans hf))

end SameButRows

theorem reindex_indexed {r : Registry} (h : r.Consistent) (hf : r.finalized = true) :
    r.reindex.value.Indexed := by
  have hgrows := reindex_grows h
  have halike : Alike r r.reindex.value :=
    ⟨h, hgrows.consistent, hgrows.contains_eq h, rfl, rfl, rfl⟩
  have hcommon : (r.findCommon r.settings.common).value = r.dueCommon := by
    rw [findCommon_value, dueCommon, if_pos hf]
  constructor
  case common => exact hcommon.trans halike.dueCommon.symm
  case table =>
      rw [halike.dueTags, dueTags, if_pos hf, ← hcommon]
      rfl
  case carried =>
      intro t ht
      have hdue : t ∈ r.dueTags := by
        rw [dueTags, if_pos hf, ← hcommon]
        exact ht
      have hmem : t ∈ IndexTable.ordered r.tree.tags r.dueCommon := by
        rw [dueTags, if_pos hf] at hdue
        exact List.mem_of_mem_take hdue
      obtain ⟨i, hi⟩ := Option.isSome_iff_exists.mp
        (h.tree.mem_tags.mp (IndexTable.mem_ordered.mp hmem).1)
      have hshape := Tree.reindex_sameShape r.tree r.reindex.value.table.tags
      have hindex := Tree.isSome_index_reindex h.tree ht hi
      have hnode : r.reindex.value.tree.node? t.name = some (r.reindex.value.tree.node i) := by
        rw [Tree.node?, show r.reindex.value.tree.position? t.name = some i from
          (hshape.position? _).trans hi]
        rfl
      rw [hnode]
      exact hindex

namespace Indexed
variable {r : Registry} (h : r.Indexed)
include h

theorem of_eq {r' : Registry} (hs : r'.settings = r.settings) (ht : r'.tree = r.tree)
    (hf : r'.finalized = r.finalized) (hc : r'.common = r.common) (htable : r'.table = r.table) :
    r'.Indexed := by
  have hfind : r'.find? = r.find? := by
    funext name
    rw [Registry.find?, Registry.find?, ht]
  have hcommon : r'.dueCommon = r.dueCommon := by simp only [dueCommon, hfind, hs, hf]
  have htags : r'.dueTags = r.dueTags := by simp only [dueTags, hcommon, hs, ht, hf]
  constructor
  case common => rw [hc, hcommon, h.common]
  case table => rw [htable, htags, h.table]
  case carried =>
      rw [htable, ht]
      exact h.carried

theorem common_of_unfinalized (hf : r.finalized = false) : r.common = [] :=
  h.common.trans (if_neg (by simp [hf]))

theorem table_of_unfinalized (hf : r.finalized = false) : r.table = ⟨[]⟩ :=
  congrArg IndexTable.mk (h.table.trans (if_neg (by simp [hf])))

theorem of_rows {r' : Registry} (hf : r.finalized = false) (hsame : SameButRows r r') :
    r'.Indexed := by
  have hf' : ¬ r'.finalized = true := by simp [hsame.finalized, hf]
  have htags : r'.table.tags = [] := by rw [hsame.table, h.table_of_unfinalized hf]
  constructor
  case common => rw [dueCommon, if_neg hf', hsame.common, h.common_of_unfinalized hf]
  case table => rw [dueTags, if_neg hf', htags]
  case carried =>
      intro t ht
      rw [htags] at ht
      cases ht

theorem load (hc : r.Consistent) (source : String) (kind : SourceKind) (rows : List Row) :
    (r.load source kind rows).value.1.Indexed := by
  cases hf : r.finalized with
  | false => exact h.of_rows hf (.load hf source kind rows)
  | true =>
    obtain ⟨hwith, hmem⟩ := withSource_grows hc source kind
    obtain ⟨hrows, hcount⟩ := loadRows_grows hwith.consistent hmem rows
    have hsource := SameButRows.withSource r source kind
    have hsame := hsource.trans (.loadRows _ source rows)
    rw [load_of_finalized hf]
    dsimp only
    split
    · exact reindex_indexed hrows.consistent (hsame.finalized.trans hf)
    · rename_i hzero
      -- All rows were refused, so the tree is the one that was indexed.
      have hnone : validNames rows = [] := List.length_eq_zero_iff.mp (by omega)
      rw [loadRows_of_none _ source hnone]
      exact h.of_eq hsource.settings (withSource_tree r source kind) hsource.finalized
        hsource.common hsource.table

theorem addNative (row : Row) : (r.addNative row).value.1.Indexed := by
  cases hf : r.finalized with
  | false => exact h.of_rows hf (.addNative r row)
  | true =>
      rw [addNative_of_finalized hf]
      exact h

theorem addNatives (rows : List Row) : (r.addNatives rows).value.1.Indexed := by
  induction rows generalizing r with
  | nil => exact h
  | cons row rows ih =>
      have hstep := h.addNative row
      rw [Registry.addNatives, Logged.value_bind]
      cases hout : (r.addNative row).value with
      | mk r₁ answer =>
      rw [hout] at hstep
      cases answer with
      | ok tag => exact ih hstep
      | error cause => exact hstep

theorem addRedirect (d : Redirect) : (r.addRedirect d).value.1.Indexed := by
  unfold Registry.addRedirect
  split
  · exact h
  · split
    · exact h
    · exact h.of_eq rfl rfl rfl rfl rfl

theorem addRedirects (ds : List Redirect) : (r.addRedirects ds).value.Indexed := by
  induction ds generalizing r with
  | nil => exact h
  | cons d ds ih => exact ih (h.addRedirect d)

theorem finalize (hc : r.Consistent) : r.finalize.value.Indexed := by
  unfold Registry.finalize
  split
  · exact h
  · have hflag : Grows r { r with finalized := true } [] := hc.of_eq rfl rfl rfl rfl rfl
    exact reindex_indexed hflag.consistent rfl

theorem request (name : String) : (r.request name).value.1.Indexed := by
  unfold Registry.request
  rw [Logged.value_bind]
  split
  · exact h.of_eq rfl rfl rfl rfl rfl
  · exact h

end Indexed

theorem finalize_of_unfinalized {r : Registry} (hf : r.finalized = false) :
    r.finalize.value = { r with finalized := true }.reindex.value := by
  rw [finalize, if_neg (by simp [hf])]
  rfl

theorem rebuild_flags (r : Registry) :
    r.rebuild.value.redirects = r.redirects ∧ r.rebuild.value.finalized = r.finalized := by
  have hfresh := SameButRows.replay (r := r.cleared) rfl r.log
  unfold rebuild
  rw [Logged.value_bind]
  cases hf : r.finalized with
  | true =>
      rw [if_pos rfl, finalize_of_unfinalized hfresh.finalized]
      exact ⟨hfresh.redirects, rfl⟩
  | false => exact ⟨hfresh.redirects, hfresh.finalized⟩

theorem addRedirect_finalized (r : Registry) (d : Redirect) :
    (r.addRedirect d).value.1.finalized = r.finalized := by
  unfold addRedirect
  split
  · rfl
  · split <;> rfl

theorem addRedirects_finalized (r : Registry) (ds : List Redirect) :
    (r.addRedirects ds).value.finalized = r.finalized := by
  induction ds generalizing r with
  | nil => rfl
  | cons d ds ih => exact (ih _).trans (addRedirect_finalized r d)

theorem request_finalized (r : Registry) (name : String) :
    (r.request name).value.1.finalized = r.finalized := by
  unfold request
  rw [Logged.value_bind]
  split <;> rfl

theorem loadLists_finalized {r : Registry} (hf : r.finalized = false) (lists : List TagList) :
    (r.loadLists lists).value.finalized = false := by
  induction lists generalizing r with
  | nil => exact hf
  | cons list lists ih =>
      exact ih ((SameButRows.load hf list.name .tagList list.rows).finalized.trans hf)

theorem ofConfiguration_finalized (c : Configuration) :
    (ofConfiguration c).value.finalized = false := by
  have hempty : (empty c.settings).finalized = false := rfl
  unfold ofConfiguration
  split
  · have hload := SameButRows.load hempty Source.settings .defaultList c.settings.rows
    exact (addRedirects_finalized _ _).trans (loadLists_finalized (hload.finalized.trans hempty) _)
  · exact addRedirects_finalized _ _

theorem Origin.registry_finalized (o : Origin) : o.registry.value.finalized = false := by
  cases o with
  | empty settings => rfl
  | ofSettings settings => exact ofConfiguration_finalized ⟨settings, []⟩
  | ofConfiguration configuration => exact ofConfiguration_finalized configuration

/-- Finalizing sets the flag, and no other operation changes it. -/
theorem Operation.apply_finalized {r : Registry} (h : r.Consistent) (op : Operation) :
    (op.apply r).value.finalized = true ↔ r.finalized = true ∨ op = .finalize := by
  have hkept : ∀ {r' : Registry}, r'.finalized = r.finalized → op ≠ .finalize →
      (r'.finalized = true ↔ r.finalized = true ∨ op = .finalize) := by
    intro r' hsame hother
    rw [hsame, or_iff_left hother]
  cases op with
  | load source kind rows => exact hkept (load_grows h source kind rows).2.2 nofun
  | addRow source row => exact hkept (load_grows h source .dataTable [row]).2.2 nofun
  | addNative row => exact hkept (SameButRows.addNative r row).finalized nofun
  | addNatives rows => exact hkept (addNatives_grows h rows).2 nofun
  | addRedirect d => exact hkept (addRedirect_finalized r d) nofun
  | addRedirects ds => exact hkept (addRedirects_finalized r ds) nofun
  | finalize => exact iff_of_true (finalize_finalized r) (.inr rfl)
  | rebuild => exact hkept (rebuild_flags r).2 nofun
  | request name => exact hkept (request_finalized r name) nofun

theorem run_finalized {r : Registry} (h : r.Consistent) (ops : List Operation) :
    (r.run ops).finalized = true ↔ r.finalized = true ∨ .finalize ∈ ops := by
  induction ops generalizing r with
  | nil => simp [run]
  | cons op ops ih =>
      rw [run, ih (op.apply_grows h).consistent, op.apply_finalized h, List.mem_cons, or_assoc,
        eq_comm (a := op)]

/-- A history that finalizes at some point ends finalized, and no other does. -/
theorem History.finalized_iff (h : History) :
    h.registry.finalized = true ↔ .finalize ∈ h.operations := by
  have horigin : ¬ h.origin.registry.value.finalized = true := by
    simp [h.origin.registry_finalized]
  obtain ⟨_, hgrows⟩ := h.origin.registry_grows
  rw [registry, run_finalized hgrows.consistent, or_iff_right horigin]

theorem empty_indexed (s : Settings) : (empty s).Indexed := ⟨rfl, rfl, nofun⟩

theorem cleared_indexed (r : Registry) : r.cleared.Indexed := ⟨rfl, rfl, nofun⟩

theorem rebuild_indexed {r : Registry} (h : r.Consistent) : r.rebuild.value.Indexed := by
  have hfresh := (cleared_indexed r).of_rows rfl (.replay rfl r.log)
  unfold rebuild
  rw [Logged.value_bind]
  split
  · exact hfresh.finalize (replay_cleared_grows h).consistent
  · exact hfresh

theorem loadLists_indexed {r : Registry} (hc : r.Consistent) (h : r.Indexed)
    (lists : List TagList) : (r.loadLists lists).value.Indexed := by
  induction lists generalizing r with
  | nil => exact h
  | cons list lists ih =>
      exact ih (load_grows hc list.name .tagList list.rows).1.consistent
        (h.load hc list.name .tagList list.rows)

theorem ofConfiguration_indexed (c : Configuration) : (ofConfiguration c).value.Indexed := by
  have hc := empty_consistent c.settings
  have h := empty_indexed c.settings
  unfold ofConfiguration
  dsimp only
  split
  · have hrows := h.load hc Source.settings .defaultList c.settings.rows
    have hgrows := (load_grows hc Source.settings .defaultList c.settings.rows).1
    exact (loadLists_indexed hgrows.consistent hrows c.lists).addRedirects c.settings.redirects
  · exact h.addRedirects c.settings.redirects

theorem Origin.registry_indexed (o : Origin) : o.registry.value.Indexed := by
  cases o with
  | empty settings => exact empty_indexed settings
  | ofSettings settings => exact ofConfiguration_indexed ⟨settings, []⟩
  | ofConfiguration configuration => exact ofConfiguration_indexed configuration

theorem Operation.apply_indexed {r : Registry} (hc : r.Consistent) (h : r.Indexed)
    (op : Operation) : (op.apply r).value.Indexed := by
  cases op with
  | load source kind rows => exact h.load hc source kind rows
  | addRow source row => exact h.load hc source .dataTable [row]
  | addNative row => exact h.addNative row
  | addNatives rows => exact h.addNatives rows
  | addRedirect redirect => exact h.addRedirect redirect
  | addRedirects redirects => exact h.addRedirects redirects
  | finalize => exact h.finalize hc
  | rebuild => exact rebuild_indexed hc
  | request name => exact h.request name

theorem Reachable.indexed {r : Registry} (h : Reachable r) : r.Indexed := by
  induction h with
  | origin o => exact o.registry_indexed
  | step op hr ih => exact op.apply_indexed hr.consistent ih

end TagTree.Registry
