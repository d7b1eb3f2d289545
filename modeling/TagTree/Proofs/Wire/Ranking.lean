import TagTree.Proofs.Container.Union
import TagTree.Wire.Stats

/-!
# Rankings and what they price

Recorded counts list every tag once, and a ranking lists the counted valid tags
in another order. A report prices a tag by its rank. Whoever sends every tag at
the price of its rank spends what a full index costs, less the saving that the
report names.

Counts are recorded one send after the other, and a tag keeps its place in the
list once it has one. Ranking is sorting by insertion, so it is a permutation of
the counted valid tags without repetitions.

`spent` is what the sends of some tags cost, given a price for each tag. Over a
ranking with the prices of the ranks it is a sum that the definition of the
saving runs through from the first rank on, and it depends on the tags and not
on their order, so it can be computed for the counts as they were recorded. The
widths that a report considers are the proper ones, and a report either names
one of them or the full width with no saving.
-/
namespace TagTree

inductive Send where
  | alone (t : Tag)
  | inside (t : Tag)
deriving DecidableEq, Repr

namespace SendStats

def record (s : SendStats) : Send → SendStats
  | .alone t => s.recordAlone t
  | .inside t => s.recordInside t

def recorded (sends : List Send) : SendStats := sends.foldl record empty

def valid (s : SendStats) : SendStats := ⟨s.counts.filter (·.1.isValid)⟩

def spent (cost : Tag → Int) : List (Tag × SendCount) → Int
  | [] => 0
  | e :: rest => cost e.1 * e.2.total + spent cost rest

theorem tags_modify (change : SendCount → SendCount) (t : Tag) (counts : List (Tag × SendCount)) :
    (modify change t counts).map (·.1) = addUnique (counts.map (·.1)) t := by
  induction counts with
  | nil => rfl
  | cons e counts ih =>
      rw [modify, List.map_cons]
      split
      · rename_i he
        rw [List.map_cons, addUnique_of_mem (he ▸ List.mem_cons_self)]
      · rename_i hne
        rw [List.map_cons, ih]
        by_cases ht : t ∈ counts.map (·.1)
        · rw [addUnique_of_mem ht, addUnique_of_mem (List.mem_cons_of_mem _ ht)]
        · have hcons : t ∉ e.1 :: counts.map (·.1) := by
            rw [List.mem_cons, not_or]
            exact ⟨hne, ht⟩
          rw [addUnique_of_not_mem ht, addUnique_of_not_mem hcons, List.cons_append]

theorem nodup_recorded (sends : List Send) : ((recorded sends).counts.map (·.1)).Nodup := by
  suffices h : ∀ s : SendStats, (s.counts.map (·.1)).Nodup →
      ((sends.foldl record s).counts.map (·.1)).Nodup from h empty List.nodup_nil
  induction sends with
  | nil => exact fun _ h => h
  | cons send sends ih =>
      intro s h
      refine ih (s.record send) ?_
      cases send with
      | alone t =>
          rw [record, recordAlone, tags_modify]
          exact nodup_addUnique h t
      | inside t =>
          rw [record, recordInside, tags_modify]
          exact nodup_addUnique h t

theorem insertRanked_perm (a : Tag × SendCount) (entries : List (Tag × SendCount)) :
    (insertRanked a entries).Perm (a :: entries) := by
  induction entries with
  | nil => exact .refl _
  | cons b entries ih =>
      rw [insertRanked]
      split
      · exact (ih.cons b).trans (.swap a b entries)
      · exact .refl _

theorem ranked_perm (s : SendStats) : s.ranked.Perm s.valid.counts := by
  unfold ranked valid
  induction s.counts.filter (·.1.isValid) with
  | nil => exact .refl _
  | cons e entries ih => exact (insertRanked_perm e _).trans (ih.cons e)

theorem nodup_ranked (sends : List Send) : ((recorded sends).ranked.map (·.1)).Nodup := by
  have hvalid : ((recorded sends).valid.counts.map (·.1)).Nodup :=
    (nodup_recorded sends).sublist (List.filter_sublist.map _)
  exact ((recorded sends).ranked_perm.map _).nodup_iff.mpr hvalid

theorem spent_perm (cost : Tag → Int) {entries entries' : List (Tag × SendCount)}
    (h : entries.Perm entries') : spent cost entries = spent cost entries' := by
  induction h with
  | nil => rfl
  | cons e _ ih => rw [spent, spent, ih]
  | swap a b entries =>
      simp only [spent]
      omega
  | trans _ _ ih ih' => exact ih.trans ih'

theorem spent_const (width : Nat) (entries : List (Tag × SendCount)) :
    spent (fun _ => width) entries = width * (SendStats.mk entries).total := by
  induction entries with
  | nil => rw [spent, total, List.foldr_nil, Int.natCast_zero, Int.mul_zero]
  | cons e entries ih =>
      rw [spent, ih, total, total, List.foldr_cons, Int.natCast_add, Int.mul_add]

/-- Tags that cost what their ranks do. -/
theorem spent_of_price {cost : Tag → Int} {width bits rank : Nat} {entries : List (Tag × SendCount)}
    (h : ∀ k e, entries[k]? = some e → cost e.1 = price width bits (rank + k)) :
    spent cost entries = spent (fun _ => width) entries - savingFrom width bits rank entries := by
  induction entries generalizing rank with
  | nil => rfl
  | cons e entries ih =>
      have hfirst : cost e.1 = price width bits rank := h 0 e rfl
      have hrest : spent cost entries =
          spent (fun _ => width) entries - savingFrom width bits (rank + 1) entries := by
        refine ih ?_
        intro k e' he'
        rw [Nat.add_assoc, Nat.add_comm 1 k]
        exact h (k + 1) e' he'
      rw [spent, spent, savingFrom, hfirst, hrest, Int.sub_mul]
      omega

theorem cheapest_cases (gain : Nat → Int) (widths : List Nat) (best : Nat × Int) :
    cheapest gain widths best = best ∨
      ∃ bits ∈ widths, cheapest gain widths best = (bits, gain bits) := by
  induction widths generalizing best with
  | nil => exact .inl rfl
  | cons bits widths ih =>
      rw [cheapest]
      rcases ih (if best.2 < gain bits then (bits, gain bits) else best) with he | ⟨n, hn, he⟩
      · rw [he]
        split
        · exact .inr ⟨bits, List.mem_cons_self, rfl⟩
        · exact .inl rfl
      · exact .inr ⟨n, List.mem_cons_of_mem _ hn, he⟩

theorem report_eq {s : SendStats} {width bits : Nat} {saved : Int}
    (h : cheapest (saving width s.ranked) ((List.range (width - 1)).map (· + 1)) (width, 0) =
      (bits, saved)) :
    s.report width = ⟨s.ranked, width, bits, saved,
      if bits < width then (s.ranked.take (Packing.range bits)).map (·.1.name) else []⟩ := by
  simp only [report, h]

/-- A report advises against two segments, or it names the saving of a proper first segment and the
tags that fill it. -/
theorem report_cases (s : SendStats) (width : Nat) :
    s.report width = ⟨s.ranked, width, width, 0, []⟩ ∨
    ∃ bits, 0 < bits ∧ bits < width ∧
      s.report width = ⟨s.ranked, width, bits, saving width s.ranked bits,
        ((s.ranked.map (·.1)).take (Packing.range bits)).map (·.name)⟩ := by
  rcases cheapest_cases (saving width s.ranked) ((List.range (width - 1)).map (· + 1)) (width, 0)
    with he | ⟨bits, hbits, he⟩
  · left
    rw [report_eq he, if_neg (Nat.lt_irrefl width)]
  · right
    obtain ⟨n, hn, rfl⟩ := List.mem_map.mp hbits
    have hlt : n + 1 < width := by
      have := List.mem_range.mp hn
      omega
    refine ⟨n + 1, Nat.succ_pos n, hlt, ?_⟩
    rw [report_eq he, if_pos hlt, ← List.map_take, List.map_map]
    rfl

end SendStats
end TagTree
