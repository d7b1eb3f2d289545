import TagTree.Proofs.Registry.IndexLaws

/-!
# The tags that are reported as commonly replicated

A finalized registry keeps the configured names that are registered as a list of
tags. The table takes from that list each tag once, in the order of first
mention, and as many as it has room for. So the list is the front of the table
only if nothing in it comes twice and all of it has room.

The reported list is computed when the registry is finalized or indexed again:
the configured names that are registered then, in the order of the configuration
and as often as they stand there. The table starts with the same tags, each once
and cut to its size. Both are initial parts of one order, so they can be
compared position by position.

The exact condition for the indices of the reported tags to be their positions
is that no tag comes twice and that all of them have room. If a tag comes twice,
its second position is the index of another tag; if one has no room, its index
is the sentinel. Settings that pass the check can do either.
-/
namespace TagTree.Registry

/-- What a finalized registry reports as commonly replicated, against the table it has. -/
structure CommonLaws (r : Registry) : Prop where
  reported : r.common = (r.settings.common.filter r.contains).map Tag.mk
  /-- The table begins with the reported tags, each once, up to its size. -/
  front : r.common.eraseDups.take r.table.size <+: r.table.tags
  index : ∀ i t, r.common.eraseDups[i]? = some t →
    r.indexOf t = if i < r.table.size then i else r.table.sentinel
  segment_iff : r.common <+: r.table.tags ↔
    r.common.Nodup ∧ r.common.length ≤ IndexTable.capacity r.settings.maxBits
  in_order_iff : (∀ i t, r.common[i]? = some t → r.indexOf t = i) ↔
    r.common.Nodup ∧ r.common.length ≤ IndexTable.capacity r.settings.maxBits

theorem Consistent.dueCommon_of_finalized {r : Registry} (hc : r.Consistent)
    (hf : r.finalized = true) :
    r.dueCommon = (r.settings.common.filter r.contains).map Tag.mk := by
  rw [dueCommon, if_pos hf, ← List.filterMap_eq_map, List.filterMap_filter]
  refine List.filterMap_congr fun name _ => ?_
  rw [hc.find?_eq]
  rfl

namespace Indexed
variable {r : Registry} (h : r.Indexed) (hc : r.Consistent) (hf : r.finalized = true)
include h hc

theorem eraseDups_initial : r.common.eraseDups <+: IndexTable.ordered r.tree.tags r.dueCommon := by
  rw [h.common]
  exact hc.eraseDups_initial

include hf

theorem front_initial : r.common.eraseDups.take r.table.size <+: r.table.tags := by
  have htable : r.table.tags <+: IndexTable.ordered r.tree.tags r.dueCommon := by
    rw [h.tags_of_finalized hf]
    exact List.take_prefix ..
  exact List.prefix_of_prefix_length_le ((List.take_prefix ..).trans (h.eraseDups_initial hc))
    htable (List.length_take_le ..)

theorem indexOf_eraseDups {i : Nat} {t : Tag} (hi : r.common.eraseDups[i]? = some t) :
    r.indexOf t = if i < r.table.size then i else r.table.sentinel := by
  split
  · rename_i hlt
    have hfront : (r.common.eraseDups.take r.table.size)[i]? = some t := by
      rw [List.getElem?_take_of_lt hlt, hi]
    exact h.indexOf_of_tagAt? hc (getElem?_of_initial (h.front_initial hc hf) hfront)
  · rename_i hge
    -- The order goes on where the table was cut, and no tag comes twice in it.
    have hbehind := getElem?_of_initial (h.eraseDups_initial hc) hi
    have hcut : IndexTable.capacity r.settings.maxBits ≤ i := by
      have hlt := (List.getElem?_eq_some_iff.mp hbehind).choose
      rw [IndexTable.size, h.tags_of_finalized hf, List.length_take] at hge
      omega
    refine h.indexOf_of_not_mem hc ?_
    rw [h.tags_of_finalized hf]
    exact not_mem_take (IndexTable.nodup_ordered ..) hbehind hcut

theorem segment_iff : r.common <+: r.table.tags ↔
    r.common.Nodup ∧ r.common.length ≤ IndexTable.capacity r.settings.maxBits := by
  constructor
  · intro hinitial
    exact ⟨h.nodup.sublist hinitial.sublist, hinitial.length_le.trans hc.fits⟩
  · rw [h.common]
    rintro ⟨hnodup, hfit⟩
    exact h.prefix_table hc hf hnodup hfit

omit hf in
/-- Every position is the index of the tag there exactly if the list is the front of the table. -/
theorem in_order_iff : (∀ i t, r.common[i]? = some t → r.indexOf t = i) ↔
    r.common <+: r.table.tags := by
  constructor
  · intro hindex
    have hsentinel : r.table.sentinel = r.table.size + 1 := rfl
    -- The number between the last index and the sentinel is no index, so the list ends before it.
    have hlength : r.common.length ≤ r.table.size := by
      by_contra hlong
      have hlt := Nat.lt_of_not_le hlong
      have hgap := hindex _ _ (List.getElem?_eq_getElem hlt)
      rcases indexOf_cases hc r.common[r.table.size] with he | ⟨hinside, _⟩
      · omega
      · omega
    refine List.prefix_iff_getElem?.mpr fun i hi => ?_
    have hown := hindex i _ (List.getElem?_eq_getElem hi)
    rcases indexOf_cases hc r.common[i] with he | ⟨_, hat, _⟩
    · omega
    · rw [hown] at hat
      exact hat
  · intro hinitial i t hi
    exact h.indexOf_of_tagAt? hc (getElem?_of_initial hinitial hi)

end Indexed

theorem Reachable.commonLaws {r : Registry} (h : Reachable r) (hf : r.finalized = true) :
    CommonLaws r := by
  have hc := h.consistent
  have hindexed := h.indexed
  constructor
  case reported => exact hindexed.common.trans (hc.dueCommon_of_finalized hf)
  case front => exact hindexed.front_initial hc hf
  case index => exact fun _ _ => hindexed.indexOf_eraseDups hc hf
  case segment_iff => exact hindexed.segment_iff hc hf
  case in_order_iff => exact (hindexed.in_order_iff hc).trans (hindexed.segment_iff hc hf)

theorem commonLaws_mixed :
    let r := (empty { common := ["C", "A.B", "C", "Missing"] }).run
      [.addNatives [⟨"A.B", ""⟩, ⟨"B", ""⟩, ⟨"C", ""⟩], .finalize]
    r.finalized = true ∧ r.common = [⟨"C"⟩, ⟨"A.B"⟩, ⟨"C"⟩] ∧
      r.table.tags = [⟨"C"⟩, ⟨"A.B"⟩, ⟨"A"⟩, ⟨"B"⟩] ∧ CommonLaws r := by
  have hf : ((empty { common := ["C", "A.B", "C", "Missing"] }).run
    [.addNatives [⟨"A.B", ""⟩, ⟨"B", ""⟩, ⟨"C", ""⟩], .finalize]).finalized = true := by
    decide +kernel
  exact ⟨hf, by decide +kernel, by decide +kernel,
    Reachable.commonLaws (.run (.origin (.empty _)) _) hf⟩

theorem common_not_in_order :
    (let s : Settings := { common := ["A", "A"] }
      let r := (empty s).run [.addNatives [⟨"A", ""⟩, ⟨"B", ""⟩], .finalize]
      s.check = .ok () ∧ Reachable r ∧ r.finalized = true ∧ r.common = [⟨"A"⟩, ⟨"A"⟩] ∧
        r.table.tags = [⟨"A"⟩, ⟨"B"⟩] ∧ ¬ ∀ i t, r.common[i]? = some t → r.indexOf t = i) ∧
    (let s : Settings := { maxBits := 1, common := ["A"] }
      let r := (empty s).run [.addNatives [⟨"A", ""⟩], .finalize]
      s.check = .ok () ∧ Reachable r ∧ r.finalized = true ∧ r.common = [⟨"A"⟩] ∧
        r.table.tags = [] ∧ ¬ ∀ i t, r.common[i]? = some t → r.indexOf t = i) := by
  refine ⟨⟨by decide +kernel, .run (.origin (.empty _)) _, by decide +kernel, by decide +kernel,
    by decide +kernel, ?_⟩, by decide +kernel, .run (.origin (.empty _)) _, by decide +kernel,
    by decide +kernel, by decide +kernel, ?_⟩
  · intro hindex
    exact absurd (hindex 1 ⟨"A"⟩ (by decide +kernel)) (by decide +kernel)
  · intro hindex
    exact absurd (hindex 0 ⟨"A"⟩ (by decide +kernel)) (by decide +kernel)

end TagTree.Registry
