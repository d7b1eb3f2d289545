import TagTree.Proofs.Registry.Indexed
import TagTree.Proofs.Wire.Sending

/-!
# The indices after a run

A finalized registry gives the positions of its index table to the tags that
stand there, one to each, and the sentinel to every other tag. Which tags are in
the table follows from the number of registered tags and the width of an index.
Nothing but the positions of the table stands for a tag.

`IndexLaws` collects what is said of indices and tags. Where the table has a
tag, that position is the index of the tag, and looking the index up gives the
tag back; where it has none the index is the sentinel, and looking that up gives
the invalid tag. How many registered tags go without an index is a difference of
two numbers, and which ones they are is read off the order of the table.

All of it follows from two facts about a registry of a run: its nodes carry
positions of the table and nothing else, and its table is the one that is due
for its names and settings. Before a registry is finalized the table is empty,
and then no tag has an index.
-/
namespace TagTree.Registry

theorem filter_not_mem_take {tags : List Tag} (h : tags.Nodup) (n : Nat) :
    (tags.filter fun t => t ∉ tags.take n) = tags.drop n := by
  have hsplit : (tags.filter fun t => t ∉ tags.take n) =
      ((tags.take n).filter fun t => t ∉ tags.take n) ++
        (tags.drop n).filter fun t => t ∉ tags.take n := by
    rw [← List.filter_append, List.take_append_drop]
  have hfirst : ((tags.take n).filter fun t => t ∉ tags.take n) = [] := by
    refine List.filter_eq_nil_iff.mpr ?_
    intro t ht
    simp [ht]
  have hrest : ((tags.drop n).filter fun t => t ∉ tags.take n) = tags.drop n := by
    refine List.filter_eq_self.mpr ?_
    intro t ht
    have hnot : t ∉ tags.take n := fun htake => List.disjoint_take_drop h (Nat.le_refl n) htake ht
    simpa using hnot
  rw [hsplit, hfirst, hrest, List.nil_append]

theorem not_mem_take {tags : List Tag} (h : tags.Nodup) {k n : Nat} {t : Tag}
    (hk : tags[k]? = some t) (hn : n ≤ k) : t ∉ tags.take n := by
  have hdrop : (tags.drop n)[k - n]? = some t := by
    rw [List.getElem?_drop, Nat.add_sub_cancel' hn, hk]
  exact fun htake => List.disjoint_take_drop h (Nat.le_refl n) htake (List.mem_of_getElem? hdrop)

theorem getElem?_of_initial {tags tags' : List Tag} (h : tags <+: tags') {i : Nat} {t : Tag}
    (hi : tags[i]? = some t) : tags'[i]? = some t := by
  obtain ⟨hlt, rfl⟩ := List.getElem?_eq_some_iff.mp hi
  exact List.prefix_iff_getElem?.mp h i hlt

theorem Consistent.isValid_of_mem_tags {r : Registry} (hc : r.Consistent) :
    ∀ t ∈ r.tree.tags, t.isValid = true :=
  fun _ ht => bne_iff_ne.mpr (hc.ne_empty_of_contains (hc.mem_tags.mp ht))

theorem Consistent.ordered_perm {r : Registry} (hc : r.Consistent) (common : List Tag) :
    (IndexTable.ordered r.tree.tags common).Perm r.tree.tags :=
  IndexTable.ordered_perm hc.tree.tags_nodup.of_map hc.isValid_of_mem_tags common

theorem Consistent.eraseDups_initial {r : Registry} (hc : r.Consistent) :
    r.dueCommon.eraseDups <+: IndexTable.ordered r.tree.tags r.dueCommon :=
  IndexTable.prefix_ordered hc.dueCommon_subset hc.isValid_of_mem_tags

namespace Indexed
variable {r : Registry} (h : r.Indexed)
include h

theorem tags_of_finalized (hf : r.finalized = true) : r.table.tags =
    (IndexTable.ordered r.tree.tags r.dueCommon).take (IndexTable.capacity r.settings.maxBits) :=
  h.table.trans (if_pos hf)

theorem nodup : r.table.tags.Nodup := by
  rw [h.table, dueTags]
  split
  · exact (IndexTable.nodup_ordered ..).take
  · exact List.nodup_nil

theorem prefix_table (hc : r.Consistent) (hf : r.finalized = true) (hnodup : r.dueCommon.Nodup)
    (hfit : r.dueCommon.length ≤ IndexTable.capacity r.settings.maxBits) :
    r.dueCommon <+: r.table.tags := by
  have hinitial := hc.eraseDups_initial
  rw [Container.eraseDups_of_nodup hnodup] at hinitial
  rw [h.tags_of_finalized hf]
  exact List.prefix_take_iff.mpr ⟨hinitial, hfit⟩

theorem contains_of_mem (hc : r.Consistent) {t : Tag} (ht : t ∈ r.table.tags) :
    r.contains t.name := by
  rw [h.table, dueTags] at ht
  split at ht
  · exact hc.mem_tags.mp (IndexTable.mem_ordered.mp (List.mem_of_mem_take ht)).1
  · cases ht

theorem idxOf?_of_tagAt? {t : Tag} {i : Nat} (hi : r.table.tagAt? i = some t) :
    r.table.tags.idxOf? t = some i := by
  obtain ⟨hlt, htag⟩ := List.getElem?_eq_some_iff.mp hi
  refine List.idxOf?_eq_some_iff.mpr ⟨hlt, htag, ?_⟩
  intro j hj he
  have hsame := (List.Nodup.getElem_inj_iff h.nodup).mp (he.trans htag.symm)
  omega

theorem index_eq (hc : r.Consistent) (t : Tag) :
    (r.tree.node? t.name).bind (·.index) = r.table.tags.idxOf? t := by
  cases hk : (r.tree.node? t.name).bind (·.index) with
  | some k => exact (h.idxOf?_of_tagAt? (tagAt?_of_index hc hk)).symm
  | none =>
      refine (List.idxOf?_eq_none_iff.mpr ?_).symm
      intro ht
      have hsome := h.carried t ht
      rw [hk] at hsome
      cases hsome

theorem indexOf_eq (hc : r.Consistent) (t : Tag) :
    r.indexOf t = (r.table.tags.idxOf? t).getD r.table.sentinel := by
  rw [indexOf, h.index_eq hc]

theorem indexOf_of_not_mem (hc : r.Consistent) {t : Tag} (ht : t ∉ r.table.tags) :
    r.indexOf t = r.table.sentinel := by
  rw [h.indexOf_eq hc, List.idxOf?_eq_none_iff.mpr ht]
  rfl

theorem indexOf_of_tagAt? (hc : r.Consistent) {t : Tag} {i : Nat} (hi : r.table.tagAt? i = some t) :
    r.indexOf t = i := by
  rw [h.indexOf_eq hc, h.idxOf?_of_tagAt? hi]
  rfl

theorem tagAt?_indexOf (hc : r.Consistent) {t : Tag} (ht : t ∈ r.table.tags) :
    r.table.tagAt? (r.indexOf t) = some t := by
  obtain ⟨i, hi⟩ := List.getElem?_of_mem ht
  rw [h.indexOf_of_tagAt? hc hi]
  exact hi

theorem indexOf_eq_sentinel_iff (hc : r.Consistent) (t : Tag) :
    r.indexOf t = r.table.sentinel ↔ t ∉ r.table.tags := by
  constructor
  · intro he ht
    have hat := h.tagAt?_indexOf hc ht
    have hlt : r.table.sentinel < r.table.size :=
      he ▸ (List.getElem?_eq_some_iff.mp hat).choose
    exact absurd hlt (Nat.not_lt.mpr (Nat.le_succ _))
  · exact h.indexOf_of_not_mem hc

/-- The tags without an index are those beyond the capacity. -/
theorem length_without_index (hc : r.Consistent) (hf : r.finalized = true) :
    (r.tree.tags.filter fun t => r.indexOf t = r.table.sentinel).length =
      r.tagCount - IndexTable.capacity r.settings.maxBits := by
  have hperm := hc.ordered_perm r.dueCommon
  simp only [h.indexOf_eq_sentinel_iff hc, h.tags_of_finalized hf]
  rw [← (hperm.filter _).length_eq, filter_not_mem_take (IndexTable.nodup_ordered ..),
    List.length_drop, hperm.length_eq, Tree.length_tags]
  rfl

end Indexed

structure IndexLaws (r : Registry) : Prop where
  before : r.finalized = false → ∀ t, r.indexOf t = r.table.sentinel
  /-- A registered tag stands in the table at its index, or it is not there and has none. -/
  registered : ∀ t, r.contains t.name →
    (r.indexOf t < r.table.size ∧ r.table.tagAt? (r.indexOf t) = some t ∧
      (r.tagOfIndex (r.indexOf t)).value = t) ∨
    (r.indexOf t = r.table.sentinel ∧ t ∉ r.table.tags)
  /-- Only tags beyond the capacity have no index. -/
  without : r.finalized = true →
    (r.tree.tags.filter fun t => r.indexOf t = r.table.sentinel).length =
      r.tagCount - IndexTable.capacity r.settings.maxBits
  once : ∀ i < r.table.size, ∃! t, r.contains t.name ∧ r.indexOf t = i
  unregistered : ∀ t, ¬ r.contains t.name ∨ t.isValid = false → r.indexOf t = r.table.sentinel
  /-- The sentinel, the number below it and all numbers above it stand for no tag. -/
  decoded : ∀ i, r.table.sentinel ≤ i + 1 → (r.tagOfIndex i).value = .invalid
  fits : r.table.sentinel ≤ maxIndex

theorem tagOfIndex_of_tagAt? {r : Registry} {t : Tag} {i : Nat} (hi : r.table.tagAt? i = some t) :
    (r.tagOfIndex i).value = t := by
  have hlt : i < r.table.size := (List.getElem?_eq_some_iff.mp hi).choose
  have hne : i ≠ r.table.sentinel := Nat.ne_of_lt (Nat.lt_succ_of_lt hlt)
  rw [tagOfIndex, if_neg hne, hi]
  rfl

theorem tagOfIndex_of_size_le {r : Registry} {i : Nat} (hi : r.table.size ≤ i) :
    (r.tagOfIndex i).value = .invalid := by
  have hnone : r.table.tagAt? i = none := List.getElem?_eq_none hi
  unfold tagOfIndex
  split
  · rfl
  · rw [hnone]
    rfl

theorem Indexed.indexLaws {r : Registry} (h : r.Indexed) (hc : r.Consistent) : IndexLaws r := by
  constructor
  case before =>
      intro hf t
      refine h.indexOf_of_not_mem hc ?_
      rw [h.table_of_unfinalized hf]
      exact List.not_mem_nil
  case registered =>
      intro t _
      by_cases ht : t ∈ r.table.tags
      · have hat := h.tagAt?_indexOf hc ht
        exact .inl ⟨(List.getElem?_eq_some_iff.mp hat).choose, hat, tagOfIndex_of_tagAt? hat⟩
      · exact .inr ⟨h.indexOf_of_not_mem hc ht, ht⟩
  case without => exact h.length_without_index hc
  case once =>
      intro i hi
      have hat : r.table.tagAt? i = some r.table.tags[i] := List.getElem?_eq_getElem hi
      refine ⟨r.table.tags[i], ⟨h.contains_of_mem hc (List.getElem_mem hi),
        h.indexOf_of_tagAt? hc hat⟩, ?_⟩
      rintro t ⟨_, ht⟩
      have hne : r.indexOf t ≠ r.table.sentinel := by
        rw [ht]
        exact Nat.ne_of_lt (Nat.lt_succ_of_lt hi)
      have hmem : t ∈ r.table.tags := by
        by_contra hnot
        exact hne (h.indexOf_of_not_mem hc hnot)
      have hown := h.tagAt?_indexOf hc hmem
      rw [ht, hat] at hown
      exact (Option.some.inj hown).symm
  case unregistered =>
      intro t ht
      refine h.indexOf_of_not_mem hc ?_
      intro hmem
      have hcontains := h.contains_of_mem hc hmem
      rcases ht with ht | ht
      · exact ht hcontains
      · have hvalid : t.isValid = true := bne_iff_ne.mpr (hc.ne_empty_of_contains hcontains)
        rw [ht] at hvalid
        cases hvalid
  case decoded =>
      intro i hi
      exact tagOfIndex_of_size_le (Nat.le_of_succ_le_succ hi)
  case fits => exact IndexTable.sentinel_le hc.fits

/-- The laws hold after every history. What they ask of a finalized registry holds of the histories that
finalize, before or after their rows come. -/
theorem indexLaws_of_history (h : History) : IndexLaws h.registry :=
  h.reachable.indexed.indexLaws h.reachable.consistent

/-- A table with room for two of the four tags, of which one came late. -/
example :
    let r := (empty { maxBits := 2, common := ["B", "B"] }).run
      [.addNatives [⟨"A.C", ""⟩, ⟨"B", ""⟩], .finalize, .addRow "Late" ⟨"0", ""⟩]
    r.table.tags = [⟨"B"⟩, ⟨"0"⟩] ∧ r.indexOf ⟨"A"⟩ = 3 ∧ r.indexOf ⟨"A.C"⟩ = 3 := by
  decide +kernel

end TagTree.Registry
