import TagTree.Proofs.Registry.Peers
import TagTree.Proofs.Wire.Ranking

/-!
# What a report saves

A report knows ranks and the width of an index, but no table. When its
suggestion is followed, the first ranks become the first indices and every other
tag gets an index beyond them or the sentinel, so each tag is sent at the price
of its rank. The width of an index does not change, since it follows from the
number of tags.

Following a report means finalizing a registry with the suggested first segment
and the suggested tags in front. These are registered, so all of them are found
and have the first indices in their order, which is the order of their ranks.
The suggested segment has at most as many values as there are tags, so a ranked
tag beyond the front has an index or a sentinel beyond the segment and costs the
full width and the flag.

The price by rank is then what sending costs, for tags in the table and for
those that lost their index. Summed over all recorded sends this is the saving
that the report computed. If the report advises against two segments, every tag
is sent in one field at full width.
-/
namespace TagTree

def SendReport.applied (report : SendReport) (s : Settings) : Settings :=
  { s with firstBits := report.firstBits, common := report.common, fast := true }

theorem Packing.range_succ (width : Nat) : range (width + 1) = 2 * range width := by
  rw [range, range, Nat.one_shiftLeft, Nat.one_shiftLeft, Nat.pow_succ, Nat.mul_comm]

namespace IndexTable

theorem range_le_sentinel {t : IndexTable} {bits : Nat} (h : bits < t.width) :
    Packing.range bits ≤ t.sentinel :=
  Nat.not_lt.mp fun hlt => Nat.not_lt.mpr (t.width_le_iff.mpr hlt) h

/-- The sentinel of a full table is odd, so a first segment with that many values is none. -/
theorem range_le_capacity {maxBits bits : Nat} (hpos : 0 < bits)
    (h : Packing.range bits ≤ capacity maxBits + 1) : Packing.range bits ≤ capacity maxBits := by
  obtain ⟨n, rfl⟩ := Nat.exists_eq_add_one.mpr hpos
  have hclamp : 0 < clampWidth maxBits := by
    unfold clampWidth
    omega
  obtain ⟨m, hm⟩ := Nat.exists_eq_add_one.mpr hclamp
  have hcapacity : capacity maxBits = Packing.range (m + 1) - 2 := by rw [← hm]; rfl
  have hroom := Packing.range_pos m
  rw [hcapacity, Packing.range_succ, Packing.range_succ] at h
  rw [hcapacity, Packing.range_succ, Packing.range_succ]
  omega

end IndexTable

namespace Registry

def bitsAdded (r : Registry) (w : BitWriter) (t : Tag) : Int :=
  ((r.sendTag w t).writer.numBits : Int) - w.numBits

section
variable {r : Registry} (hc : r.Consistent) (hfast : r.layout.fast = true) (w : BitWriter) (t : Tag)
include hc hfast

theorem sendTag_of_fast : r.sendTag w t =
    { writer := w.writeAll (Packing.bits r.layout.first r.layout.total (r.indexOf t))
      counted := [t] } := by
  have htotal : r.layout.total ≤ maxField := Nat.le_trans (IndexTable.width_le hc.fits) (by decide)
  simp only [sendTag, sendTags, writeTag, if_pos hfast, Packing.write_eq htotal]

theorem bitsAdded_of_fast : r.bitsAdded w t =
    (Packing.bits r.layout.first r.layout.total (r.indexOf t)).length := by
  rw [bitsAdded, sendTag_of_fast hc hfast, BitWriter.numBits_writeAll, Int.natCast_add]
  omega

end

theorem Consistent.dueCommon_eq {r : Registry} (hc : r.Consistent) (hf : r.finalized = true)
    {tags : List Tag} (hcommon : r.settings.common = tags.map (·.name))
    (h : ∀ t ∈ tags, r.contains t.name) : r.dueCommon = tags := by
  rw [dueCommon, if_pos hf, hcommon, List.filterMap_map]
  refine (List.filterMap_congr ?_).trans List.filterMap_some
  intro t ht
  rw [Function.comp_apply, hc.find?_eq, if_pos (h t ht)]

namespace Indexed
variable {r : Registry} (h : r.Indexed) (hc : r.Consistent) (hf : r.finalized = true)
include h hc hf

theorem size_eq : r.table.size = min r.tagCount (IndexTable.capacity r.settings.maxBits) := by
  rw [IndexTable.size, h.tags_of_finalized hf, List.length_take, (hc.ordered_perm _).length_eq,
    Tree.length_tags, Nat.min_comm]
  rfl

variable (hnodup : r.dueCommon.Nodup)
  (hfit : r.dueCommon.length ≤ IndexTable.capacity r.settings.maxBits)
include hnodup hfit

theorem indexOf_front {t : Tag} {k : Nat} (hk : r.dueCommon[k]? = some t) : r.indexOf t = k := by
  have hinitial := h.prefix_table hc hf hnodup hfit
  exact h.indexOf_of_tagAt? hc (getElem?_of_initial hinitial hk)

/-- Every other index is beyond them. -/
theorem length_le_indexOf {t : Tag} (ht : t ∉ r.dueCommon) : r.dueCommon.length ≤ r.indexOf t := by
  have hprefix := h.prefix_table hc hf hnodup hfit
  by_cases hmem : t ∈ r.table.tags
  · by_contra hlt
    obtain ⟨rest, hrest⟩ := hprefix
    have hat := h.tagAt?_indexOf hc hmem
    rw [IndexTable.tagAt?, ← hrest, List.getElem?_append_left (Nat.lt_of_not_le hlt)] at hat
    exact ht (List.mem_of_getElem? hat)
  · rw [h.indexOf_of_not_mem hc hmem]
    exact Nat.le_succ_of_le hprefix.length_le

omit hnodup hfit

theorem bitsAdded_ranked (hfast : r.layout.fast = true) {bits : Nat} (hpos : 0 < bits)
    (hlt : bits < r.layout.total) (hfirst : r.layout.first = bits) {tags : List Tag}
    (hnodup : tags.Nodup) (hfront : r.dueCommon = tags.take (Packing.range bits)) {k : Nat} {t : Tag}
    (hk : tags[k]? = some t) (w : BitWriter) :
    r.bitsAdded w t = SendStats.price r.layout.total bits k := by
  have hlength : r.dueCommon.length = min (Packing.range bits) tags.length := by
    rw [hfront, List.length_take]
  have hdistinct : r.dueCommon.Nodup := hfront ▸ hnodup.take
  have hroom : Packing.range bits ≤ IndexTable.capacity r.settings.maxBits :=
    IndexTable.range_le_capacity hpos
      ((IndexTable.range_le_sentinel hlt).trans (Nat.succ_le_succ hc.fits))
  have hfit : r.dueCommon.length ≤ IndexTable.capacity r.settings.maxBits := by omega
  have hwhole := Packing.not_isWhole_iff.mpr ⟨hpos, hlt⟩
  rw [bitsAdded_of_fast hc hfast, hfirst, Packing.length_bits, if_neg hwhole, SendStats.price]
  by_cases hrank : k < Packing.range bits
  · have hat : r.dueCommon[k]? = some t := by rw [hfront, List.getElem?_take_of_lt hrank, hk]
    have hindex : r.indexOf t = k := h.indexOf_front hc hf hdistinct hfit hat
    have hshort : ¬ Packing.mask bits < r.indexOf t := by
      rw [Packing.mask_lt_iff]
      omega
    rw [if_pos hrank, if_neg hshort]
  · have hbeyond : Packing.range bits ≤ k := Nat.le_of_not_lt hrank
    have hnot : t ∉ r.dueCommon := hfront ▸ not_mem_take hnodup hk hbeyond
    have hindex := h.length_le_indexOf hc hf hdistinct hfit hnot
    have hrange : k < tags.length := (List.getElem?_eq_some_iff.mp hk).choose
    have hlong : Packing.mask bits < r.indexOf t := by
      rw [Packing.mask_lt_iff]
      omega
    rw [if_neg hrank, if_pos hlong]
    omega

end Indexed

theorem bitsAdded_whole {r : Registry} (hc : r.Consistent) (hfast : r.layout.fast = true)
    (hfirst : r.layout.first = r.layout.total) (w : BitWriter) (t : Tag) :
    r.bitsAdded w t = r.layout.total := by
  have hwhole : Packing.isWhole r.layout.first r.layout.total = true := by
    simp [Packing.isWhole, hfirst]
  rw [bitsAdded_of_fast hc hfast, Packing.length_bits, if_pos hwhole]

theorem Indexed.total_congr {r r' : Registry} (h : r.Indexed) (h' : r'.Indexed) (hc : r.Consistent)
    (hc' : r'.Consistent) (hf : r.finalized = true) (hf' : r'.finalized = true)
    (hcontains : ∀ m, r'.contains m = r.contains m)
    (hroom : IndexTable.capacity r'.settings.maxBits = IndexTable.capacity r.settings.maxBits) :
    r'.layout.total = r.layout.total := by
  have hcount : r'.tagCount = r.tagCount :=
    congrArg (· - 1) (hc.sameNames hc' hcontains).size
  have hsize : r'.table.size = r.table.size := by
    rw [h.size_eq hc hf, h'.size_eq hc' hf', hcount, hroom]
  rw [layout, layout, IndexTable.width, IndexTable.width, IndexTable.sentinel, IndexTable.sentinel,
    hsize]

theorem Indexed.total_eq {r r' : Registry} (h : r.Indexed) (h' : r'.Indexed) (hc : r.Consistent)
    (hc' : r'.Consistent) (hf : r.finalized = true) (hf' : r'.finalized = true)
    (hcontains : ∀ m, r'.contains m = r.contains m)
    (hmax : r'.settings.maxBits = r.settings.maxBits) : r'.layout.total = r.layout.total :=
  h.total_congr h' hc hc' hf hf' hcontains (congrArg IndexTable.capacity hmax)

/-- A registry with the settings of a report on its own width spends as much less than full indices
as the report says. -/
theorem Indexed.spent_applied {r : Registry} (h : r.Indexed) (hc : r.Consistent)
    (hf : r.finalized = true) {s : SendStats} (hnodup : (s.ranked.map (·.1)).Nodup)
    {settings : Settings} (hsettings : r.settings = (s.report r.layout.total).applied settings)
    (hsent : ∀ e ∈ s.valid.counts, r.contains e.1.name) (w : BitWriter) :
    SendStats.spent (r.bitsAdded w) s.valid.counts =
      r.layout.total * s.valid.total - (s.report r.layout.total).saved := by
  have hfast : r.layout.fast = true := congrArg Settings.fast hsettings
  have hbits := congrArg Settings.firstBits hsettings
  have hcommon := congrArg Settings.common hsettings
  have hfirst : r.layout.first = min r.settings.firstBits r.layout.total := rfl
  rw [← SendStats.spent_const]
  rcases s.report_cases r.layout.total with hwhole | ⟨bits, hpos, hlt, hsplit⟩
  · rw [hwhole] at hbits ⊢
    have hcost : r.bitsAdded w = fun _ => (r.layout.total : Int) := by
      funext t
      refine bitsAdded_whole hc hfast ?_ w t
      rw [hfirst, hbits]
      exact Nat.min_self _
    rw [hcost, Int.sub_zero]
  · rw [hsplit] at hbits hcommon ⊢
    have hregistered : ∀ t ∈ (s.ranked.map (·.1)).take (Packing.range bits), r.contains t.name := by
      intro t ht
      obtain ⟨e, he, rfl⟩ := List.mem_map.mp (List.mem_of_mem_take ht)
      exact hsent e (s.ranked_perm.mem_iff.mp he)
    have hfront := hc.dueCommon_eq hf hcommon hregistered
    have hproper : r.layout.first = bits := by
      rw [hfirst, hbits]
      exact Nat.min_eq_left (Nat.le_of_lt hlt)
    rw [← SendStats.spent_perm _ s.ranked_perm, ← SendStats.spent_perm _ s.ranked_perm]
    refine SendStats.spent_of_price ?_
    intro k e he
    have htag : (s.ranked.map (·.1))[k]? = some e.1 := by
      rw [List.getElem?_map, he]
      rfl
    rw [Nat.zero_add]
    exact h.bitsAdded_ranked hc hf hfast hpos hlt hproper hnodup hfront htag w

/-- Where a report on a finalized registry is followed, indices stay as wide as they were, every tag
can be sent, and sending the recorded valid tags again takes as many bits less than full indices as the
report says. -/
theorem report_predicts {h h' : History} (sends : List Send) (hf : h.registry.finalized = true)
    (hf' : h'.registry.finalized = true) (hnames : ∀ m, h'.Registers m ↔ h.Registers m)
    (hsettings : h'.registry.settings =
      ((SendStats.recorded sends).report h.registry.layout.total).applied h.registry.settings)
    (hsent : ∀ e ∈ (SendStats.recorded sends).valid.counts, h.registry.contains e.1.name) :
    let s := SendStats.recorded sends
    let total := h.registry.layout.total
    h'.registry.layout.total = total ∧
      ∀ w, (∀ t, (h'.registry.sendTag w t).error = none) ∧
        SendStats.spent (h'.registry.bitsAdded w) s.valid.counts =
          total * s.valid.total - (s.report total).saved := by
  intro s total
  have hcontains := History.contains_congr hnames
  have hmax : h'.registry.settings.maxBits = h.registry.settings.maxBits := by
    rw [hsettings]
    rfl
  have hfast : h'.registry.layout.fast = true := congrArg Settings.fast hsettings
  have htotal : h'.registry.layout.total = total :=
    h.reachable.indexed.total_eq h'.reachable.indexed h.reachable.consistent
      h'.reachable.consistent hf hf' hcontains hmax
  have hsent' : ∀ e ∈ s.valid.counts, h'.registry.contains e.1.name := by
    intro e he
    rw [hcontains]
    exact hsent e he
  have hown : h'.registry.settings =
      (s.report h'.registry.layout.total).applied h.registry.settings := by
    rw [htotal]
    exact hsettings
  refine ⟨htotal, fun w => ⟨fun t => ?_, ?_⟩⟩
  · rw [sendTag_of_fast h'.reachable.consistent hfast]
  · rw [← htotal]
    exact h'.reachable.indexed.spent_applied h'.reachable.consistent hf'
      (SendStats.nodup_ranked sends) hown hsent' w

/-- Six of eight tags fit. The two that are sent most had no index and get the first, and one tag that
is sent loses its index. -/
theorem report_predicts_truncated :
    let rows : List Row := [⟨"A", ""⟩, ⟨"B", ""⟩, ⟨"C", ""⟩, ⟨"D", ""⟩, ⟨"E", ""⟩, ⟨"F", ""⟩,
      ⟨"G", ""⟩, ⟨"H", ""⟩]
    let sends : List Send := List.replicate 5 (.alone ⟨"H"⟩) ++
      [.inside ⟨"F"⟩, .inside ⟨"G"⟩, .alone .invalid, .alone ⟨"G"⟩]
    let h : History := ⟨.empty { maxBits := 3 }, [.addNatives rows, .finalize]⟩
    let h' : History := ⟨.empty { maxBits := 3, firstBits := 1, common := ["H", "G"] },
      [.finalize, .load "List" .tagList rows.reverse]⟩
    let s := SendStats.recorded sends
    h.registry.layout.total = 3 ∧ h.registry.indexOf ⟨"G"⟩ = 7 ∧ h'.registry.indexOf ⟨"F"⟩ = 7 ∧
      s.valid.total = 8 ∧ (s.report 3).saved = 6 ∧ h'.registry.layout.total = 3 ∧
      ∀ w, (∀ t, (h'.registry.sendTag w t).error = none) ∧
        SendStats.spent (h'.registry.bitsAdded w) s.valid.counts = 18 := by
  intro rows sends h h' s
  have htotal : h.registry.layout.total = 3 := by decide +kernel
  have hcount : s.valid.total = 8 := by decide +kernel
  have hsaved : (s.report 3).saved = 6 := by decide +kernel
  have haccepted : h'.accepted = h.accepted.reverse := by decide +kernel
  have hnames : ∀ m, h'.Registers m ↔ h.Registers m := by
    intro m
    simp only [History.Registers, haccepted, List.mem_reverse]
  obtain ⟨hwidth, hspent⟩ := report_predicts sends (by decide +kernel) (by decide +kernel) hnames
    (by decide +kernel) (by decide +kernel)
  rw [htotal] at hwidth hspent
  refine ⟨htotal, by decide +kernel, by decide +kernel, hcount, hsaved, hwidth, ?_⟩
  intro w
  refine ⟨(hspent w).1, (hspent w).2.trans ?_⟩
  rw [hcount, hsaved]
  rfl

end Registry
end TagTree
