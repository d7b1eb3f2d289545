import TagTree.Proofs.Registry.Savings
import TagTree.Proofs.Wire.Suggestion

/-!
# No layout is cheaper than the suggested one

A first segment that is shorter than an index makes as many tags cheap as it has
values, since tags with different indices are different and a tag without an
index has the sentinel, which is beyond the first segment. Whichever tags a
registry puts first, it therefore saves no more than the ranking does with the
same first segment, and a report takes the best of these.

A rival is a finalized registry of the same names with room for as many indices
that sends by index; its front and its first segment are free. Its full width is
the same, because that depends on the number of tags. The tags that are cheap
for the rival have indices below the number of values of its first segment, and
different tags have different indices, so they are not more than that number;
the sentinel is not among these indices.

With that the exchange argument about rankings applies: no choice of so many
tags saves more than the first ranks, and of the widths the report has taken the
best. A registry that follows the report is one of the rivals and spends exactly
what the report says, so the two bounds meet.
-/
namespace TagTree.Registry

namespace Indexed
variable {r : Registry} (h : r.Indexed) (hc : r.Consistent)
include h hc

theorem mem_table_of_lt {bits : Nat} (hlt : bits < r.layout.total) {t : Tag}
    (ht : r.indexOf t < Packing.range bits) : t ∈ r.table.tags := by
  by_contra hmem
  rw [h.indexOf_of_not_mem hc hmem] at ht
  exact absurd ht (Nat.not_lt.mpr (IndexTable.range_le_sentinel hlt))

theorem length_cheap_le {bits : Nat} (hlt : bits < r.layout.total) {tags : List Tag}
    (hn : tags.Nodup) :
    (tags.filter fun t => r.indexOf t < Packing.range bits).length ≤ Packing.range bits := by
  have hindices : ((tags.filter fun t => r.indexOf t < Packing.range bits).map r.indexOf).Nodup := by
    refine (hn.filter _).map_on ?_
    intro t ht u hu he
    have ht' := h.mem_table_of_lt hc hlt (of_decide_eq_true (List.mem_filter.mp ht).2)
    have hu' := h.mem_table_of_lt hc hlt (of_decide_eq_true (List.mem_filter.mp hu).2)
    have hat := h.tagAt?_indexOf hc ht'
    rw [he, h.tagAt?_indexOf hc hu'] at hat
    exact (Option.some.inj hat).symm
  have hsubset : (tags.filter fun t => r.indexOf t < Packing.range bits).map r.indexOf ⊆
      List.range (Packing.range bits) := by
    intro i hi
    obtain ⟨t, ht, rfl⟩ := List.mem_map.mp hi
    exact List.mem_range.mpr (of_decide_eq_true (List.mem_filter.mp ht).2)
  have hlength := hindices.length_le_of_subset hsubset
  rwa [List.length_map, List.length_range] at hlength

theorem le_spent (hfast : r.layout.fast = true) {s : SendStats}
    (hn : (s.ranked.map (·.1)).Nodup) (w : BitWriter) :
    r.layout.total * s.valid.total - (s.report r.layout.total).saved ≤
      SendStats.spent (r.bitsAdded w) s.valid.counts := by
  have hcost : ∀ t, r.bitsAdded w t =
      (Packing.bits r.layout.first r.layout.total (r.indexOf t)).length :=
    bitsAdded_of_fast hc hfast w
  have hsuggests := s.report_suggests r.layout.total
  rw [← SendStats.spent_const, ← SendStats.spent_perm _ s.ranked_perm,
    ← SendStats.spent_perm _ s.ranked_perm]
  by_cases hwhole : Packing.isWhole r.layout.first r.layout.total = true
  · have hfull : r.bitsAdded w = fun _ => (r.layout.total : Int) := by
      funext t
      rw [hcost, Packing.length_bits, if_pos hwhole]
    have hsaved := hsuggests.saves
    rw [hfull]
    omega
  · have hproper := Packing.not_isWhole_iff.mp hwhole
    have hprice : ∀ t, r.bitsAdded w t =
        if decide (r.indexOf t < Packing.range r.layout.first) then (r.layout.first : Int) + 1
        else r.layout.total + 1 := by
      intro t
      rw [hcost, Packing.length_bits, if_neg hwhole]
      have hmask := @Packing.mask_lt_iff r.layout.first (r.indexOf t)
      by_cases hshort : r.indexOf t < Packing.range r.layout.first
      · rw [if_neg (by omega), decide_eq_true hshort, if_pos rfl]
        omega
      · rw [if_pos (by omega), decide_eq_false hshort, if_neg (by decide)]
        omega
    have hfew := h.length_cheap_le hc hproper.2 hn
    rw [List.filter_map, List.length_map] at hfew
    have hbound := SendStats.le_spent (s := s) hproper.2.le hprice hfew
    have hlargest : SendStats.saving r.layout.total s.ranked r.layout.first ≤
        (s.report r.layout.total).saved := hsuggests.largest _ hproper.1 hproper.2
    omega

end Indexed

/-- A finalized registry of the same names that sends by index and has room for as many indices. Which
tags it puts first and how wide its first segment is does not matter. -/
structure History.Rival (h h' : History) : Prop where
  finalized : h'.registry.finalized = true
  names : ∀ m, h'.Registers m ↔ h.Registers m
  capacity : IndexTable.capacity h'.registry.settings.maxBits =
    IndexTable.capacity h.registry.settings.maxBits
  fast : h'.registry.settings.fast = true

structure History.Follows (h' : History) (report : SendReport) : Prop where
  firstBits : h'.registry.settings.firstBits = report.firstBits
  common : h'.registry.settings.common = report.common

theorem History.Follows.applied {h h' : History} {report : SendReport} (hrival : h.Rival h')
    (hfollows : h'.Follows report) :
    h'.registry.settings = report.applied h'.registry.settings := by
  rw [SendReport.applied, ← hfollows.firstBits, ← hfollows.common, ← hrival.fast]

theorem History.Rival.total_eq {h h' : History} (hrival : h.Rival h')
    (hf : h.registry.finalized = true) : h'.registry.layout.total = h.registry.layout.total :=
  h.reachable.indexed.total_congr h'.reachable.indexed h.reachable.consistent
    h'.reachable.consistent hf hrival.finalized (History.contains_congr hrival.names) hrival.capacity

/-- Of the registries with the same names and room for as many indices, none spends less on the
recorded valid tags than one that follows the report, which suggests the least of the best widths and
follows from the counts alone. -/
theorem report_optimal {h : History} (sends : List Send) (hf : h.registry.finalized = true)
    (hsent : ∀ e ∈ (SendStats.recorded sends).valid.counts, h.registry.contains e.1.name) :
    let s := SendStats.recorded sends
    let report := s.report h.registry.layout.total
    (∀ best other : History, h.Rival best → best.Follows report → h.Rival other → ∀ w w',
      SendStats.spent (best.registry.bitsAdded w) s.valid.counts ≤
        SendStats.spent (other.registry.bitsAdded w') s.valid.counts) ∧
    s.Suggests report ∧
    ∀ sends', (∀ t, (SendStats.recorded sends').count t = s.count t) →
      (SendStats.recorded sends').report h.registry.layout.total = report := by
  intro s report
  have hn : (s.ranked.map (·.1)).Nodup := SendStats.nodup_ranked sends
  refine ⟨?_, s.report_suggests _, ?_⟩
  · intro best other hbest hfollows hother w w'
    have hsame : report = s.report best.registry.layout.total := by rw [hbest.total_eq hf]
    have hsame' : report = s.report other.registry.layout.total := by rw [hother.total_eq hf]
    have hcontains := History.contains_congr hbest.names
    have hsent' : ∀ e ∈ s.valid.counts, best.registry.contains e.1.name := by
      intro e he
      rw [hcontains]
      exact hsent e he
    have hspent := best.reachable.indexed.spent_applied best.reachable.consistent hbest.finalized hn
      (hsame ▸ hfollows.applied hbest) hsent' w
    have hleast := other.reachable.indexed.le_spent other.reachable.consistent hother.fast hn w'
    rw [← hsame, hbest.total_eq hf] at hspent
    rw [← hsame', hother.total_eq hf] at hleast
    rw [hspent]
    exact hleast
  · intro sends' hcount
    have hranked : (SendStats.recorded sends').ranked = s.ranked :=
      SendStats.ranked_congr hn (SendStats.recorded_perm hcount)
    simp only [report, SendStats.report, hranked]

/-- Two tags are sent equally often and rank by name. The other registry has a wider first segment and
puts a tag in front that is seldom sent. -/
theorem report_optimal_tie :
    let rows : List Row := [⟨"A", ""⟩, ⟨"B", ""⟩, ⟨"C", ""⟩, ⟨"D", ""⟩, ⟨"E", ""⟩, ⟨"F", ""⟩]
    let sends : List Send := List.replicate 4 (.alone ⟨"F"⟩) ++ List.replicate 4 (.inside ⟨"B"⟩) ++
      [.alone ⟨"C"⟩, .alone .invalid]
    let h : History := ⟨.empty {}, [.addNatives rows, .finalize]⟩
    let best : History := ⟨.empty { firstBits := 1, common := ["B", "F"] },
      [.finalize, .load "List" .tagList rows.reverse]⟩
    let other : History := ⟨.empty { maxBits := 20, firstBits := 2, common := ["X", "C", "C"] },
      [.addNatives rows, .finalize]⟩
    let s := SendStats.recorded sends
    s.report h.registry.layout.total = ⟨[(⟨"B"⟩, ⟨0, 4⟩), (⟨"F"⟩, ⟨4, 0⟩), (⟨"C"⟩, ⟨1, 0⟩)], 3, 1, 7,
      ["B", "F"]⟩ ∧
      ∀ w w', SendStats.spent (best.registry.bitsAdded w) s.valid.counts ≤
        SendStats.spent (other.registry.bitsAdded w') s.valid.counts := by
  intro rows sends h best other s
  have hreport : s.report h.registry.layout.total =
      ⟨[(⟨"B"⟩, ⟨0, 4⟩), (⟨"F"⟩, ⟨4, 0⟩), (⟨"C"⟩, ⟨1, 0⟩)], 3, 1, 7, ["B", "F"]⟩ := by decide +kernel
  have haccepted : best.accepted = h.accepted.reverse := by decide +kernel
  have haccepted' : other.accepted = h.accepted := by decide +kernel
  have hbest : h.Rival best := by
    refine ⟨by decide +kernel, ?_, by decide +kernel, by decide +kernel⟩
    intro m
    simp only [History.Registers, haccepted, List.mem_reverse]
  have hother : h.Rival other := by
    refine ⟨by decide +kernel, ?_, by decide +kernel, by decide +kernel⟩
    intro m
    simp only [History.Registers, haccepted']
  have hmain := report_optimal (h := h) sends (by decide +kernel) (by decide +kernel)
  refine ⟨hreport, hmain.1 best other hbest ?_ hother⟩
  constructor
  case firstBits => exact (congrArg SendReport.firstBits hreport).symm
  case common => exact (congrArg SendReport.common hreport).symm

end TagTree.Registry
