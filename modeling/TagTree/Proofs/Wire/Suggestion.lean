import Mathlib.Data.List.Perm.Subperm
import Mathlib.Data.String.Basic
import Mathlib.Tactic.Ring
import TagTree.Proofs.Wire.Ranking

/-!
# Why a report suggests what it does

The ranking is the one order of the counted tags that the counts determine. A
first segment makes as many tags cheap as it has values, and no choice of so
many tags weighs more than the first ranks do, so the saving of a width is the
most that this width can save. Of the widths with the largest saving a report
takes the least.

The order of a ranking is total on entries of different tags, and sorting by it
gives one list for one set of entries; so the ranking does not depend on the
order of the sends. Its totals decrease, and then the first ranks outweigh any
other choice of as many entries, by an exchange of entries one at a time along
the ranking.

The saving of a width is rewritten as a constant and the weight of the first
ranks. With that, a rival that makes at most as many tags cheap saves at most as
much. The search over the widths keeps the best one found, from the least width
upwards and only for a strict gain, so it ends at the least of the best; if none
gains anything it stays with one field.
-/
namespace TagTree.SendStats

theorem mem_of_count_pos {s : SendStats} {t : Tag} (h : 0 < (s.count t).total) :
    (t, s.count t) ∈ s.counts := by
  unfold count at h ⊢
  cases hl : s.counts.lookup t with
  | none =>
      rw [hl] at h
      exact absurd h (by decide)
  | some n =>
      obtain ⟨before, after, hsplit, _⟩ := List.lookup_eq_some_iff.mp hl
      rw [hsplit]
      exact List.mem_append_right _ List.mem_cons_self

theorem count_of_mem {s : SendStats} (hn : (s.counts.map (·.1)).Nodup) {e : Tag × SendCount}
    (he : e ∈ s.counts) : s.count e.1 = e.2 := by
  obtain ⟨before, after, hsplit⟩ := List.append_of_mem he
  rw [hsplit, List.map_append, List.map_cons] at hn
  have hfirst : ∀ p ∈ before, (e.1 != p.1) = true := by
    intro p hp
    refine bne_iff_ne.mpr fun heq => ?_
    exact (List.disjoint_of_nodup_append hn) (List.mem_map_of_mem hp) (heq ▸ List.mem_cons_self)
  have hl : s.counts.lookup e.1 = some e.2 :=
    List.lookup_eq_some_iff.mpr ⟨before, after, hsplit, hfirst⟩
  rw [count, hl]
  rfl

theorem pos_modify {change : SendCount → SendCount} (hchange : ∀ n, 0 < (change n).total) (t : Tag)
    {counts : List (Tag × SendCount)} (h : ∀ e ∈ counts, 0 < e.2.total) :
    ∀ e ∈ modify change t counts, 0 < e.2.total := by
  induction counts with
  | nil =>
      intro e he
      rw [List.mem_singleton.mp he]
      exact hchange {}
  | cons c counts ih =>
      obtain ⟨hc, hcounts⟩ := List.forall_mem_cons.mp h
      rw [modify]
      split
      · exact List.forall_mem_cons.mpr ⟨hchange c.2, hcounts⟩
      · exact List.forall_mem_cons.mpr ⟨hc, ih hcounts⟩

theorem pos_recorded (sends : List Send) : ∀ e ∈ (recorded sends).counts, 0 < e.2.total := by
  suffices h : ∀ s : SendStats, (∀ e ∈ s.counts, 0 < e.2.total) →
      ∀ e ∈ (sends.foldl record s).counts, 0 < e.2.total from h empty nofun
  induction sends with
  | nil => exact fun _ h => h
  | cons send sends ih =>
      intro s h
      refine ih (s.record send) ?_
      cases send with
      | alone t =>
          refine pos_modify (fun n => ?_) t h
          simp only [SendCount.total]
          omega
      | inside t =>
          refine pos_modify (fun n => ?_) t h
          simp only [SendCount.total]
          omega

theorem mem_recorded_iff (sends : List Send) (e : Tag × SendCount) :
    e ∈ (recorded sends).counts ↔ 0 < e.2.total ∧ (recorded sends).count e.1 = e.2 := by
  constructor
  · intro he
    exact ⟨pos_recorded sends e he, count_of_mem (nodup_recorded sends) he⟩
  · rintro ⟨hpos, hcount⟩
    rw [← hcount] at hpos
    have hmem := mem_of_count_pos hpos
    rwa [hcount] at hmem

theorem recorded_perm {sends sends' : List Send}
    (h : ∀ t, (recorded sends').count t = (recorded sends).count t) :
    (recorded sends').counts.Perm (recorded sends).counts := by
  refine (List.perm_ext_iff_of_nodup (nodup_recorded _).of_map (nodup_recorded _).of_map).mpr ?_
  intro e
  rw [mem_recorded_iff, mem_recorded_iff, h]

theorem ranksBefore_iff {a b : Tag × SendCount} : ranksBefore a b = true ↔
    b.2.total < a.2.total ∨ a.2.total = b.2.total ∧ a.1.name < b.1.name := by
  simp [ranksBefore]

theorem not_ranksBefore_iff {a b : Tag × SendCount} : ranksBefore a b = false ↔
    a.2.total < b.2.total ∨ a.2.total = b.2.total ∧ b.1.name ≤ a.1.name := by
  rw [← Bool.not_eq_true, ranksBefore_iff, ← not_lt]
  by_cases hname : a.1.name < b.1.name
  · simp only [hname, and_true, not_true_eq_false, and_false, or_false]
    omega
  · simp only [hname, and_false, or_false, not_false_eq_true, and_true]
    omega

theorem insertRanked_sorted (a : Tag × SendCount) {entries : List (Tag × SendCount)}
    (h : entries.Pairwise fun a b => ranksBefore b a = false) :
    (insertRanked a entries).Pairwise fun a b => ranksBefore b a = false := by
  induction entries with
  | nil => exact List.pairwise_singleton _ a
  | cons b entries ih =>
      obtain ⟨hb, hrest⟩ := List.pairwise_cons.mp h
      rw [insertRanked]
      split
      · rename_i hba
        refine List.pairwise_cons.mpr ⟨?_, ih hrest⟩
        intro x hx
        rcases List.mem_cons.mp ((insertRanked_perm a entries).mem_iff.mp hx) with rfl | hx
        · rw [ranksBefore_iff] at hba
          rw [not_ranksBefore_iff]
          rcases hba with hlt | ⟨heq, hname⟩
          · exact .inl hlt
          · exact .inr ⟨heq.symm, hname.le⟩
        · exact hb x hx
      · rename_i hba
        have hab : ranksBefore b a = false := by simpa using hba
        refine List.pairwise_cons.mpr ⟨?_, h⟩
        intro x hx
        rcases List.mem_cons.mp hx with rfl | hx
        · exact hab
        · have hxb := hb x hx
          rw [not_ranksBefore_iff] at hab hxb ⊢
          rcases hab with hlt | ⟨heq, hname⟩
          · exact .inl (by omega)
          · rcases hxb with hlt | ⟨heq', hname'⟩
            · exact .inl (by omega)
            · exact .inr ⟨heq'.trans heq, hname.trans hname'⟩

theorem ranked_sorted (s : SendStats) :
    s.ranked.Pairwise fun a b => ranksBefore b a = false := by
  unfold ranked
  induction s.counts.filter (·.1.isValid) with
  | nil => exact .nil
  | cons e entries ih => exact insertRanked_sorted e ih

theorem ranked_decreasing (s : SendStats) :
    s.ranked.Pairwise fun a b => b.2.total ≤ a.2.total := by
  refine s.ranked_sorted.imp ?_
  intro a b h
  rcases not_ranksBefore_iff.mp h with hlt | ⟨heq, _⟩
  · exact hlt.le
  · exact heq.le

theorem ranked_congr {s s' : SendStats} (hn : (s.ranked.map (·.1)).Nodup)
    (h : s'.counts.Perm s.counts) : s'.ranked = s.ranked := by
  have hperm : s'.ranked.Perm s.ranked :=
    s'.ranked_perm.trans ((h.filter _).trans s.ranked_perm.symm)
  refine hperm.eq_of_pairwise ?_ s'.ranked_sorted s.ranked_sorted
  intro a b ha hb hab hba
  have hname : a.1.name = b.1.name := by
    rw [not_ranksBefore_iff] at hab hba
    rcases hab with hlt | ⟨_, hle⟩
    · omega
    · rcases hba with hlt | ⟨_, hle'⟩
      · omega
      · exact le_antisymm hle hle'
  have htag : a.1 = b.1 := congrArg Tag.mk hname
  exact List.inj_on_of_nodup_map hn (hperm.mem_iff.mp ha) hb htag

theorem total_cons (e : Tag × SendCount) (entries : List (Tag × SendCount)) :
    (SendStats.mk (e :: entries)).total = e.2.total + (SendStats.mk entries).total := rfl

/-- No `k` entries weigh more than the first `k`. -/
theorem total_le_take {entries chosen : List (Tag × SendCount)} {k : Nat}
    (h : entries.Pairwise fun a b => b.2.total ≤ a.2.total) (hchosen : chosen.Sublist entries)
    (hk : chosen.length ≤ k) :
    (SendStats.mk chosen).total ≤ (SendStats.mk (entries.take k)).total := by
  induction entries generalizing chosen k with
  | nil =>
      rw [List.sublist_nil.mp hchosen]
      exact Nat.zero_le _
  | cons e entries ih =>
      obtain ⟨hfirst, hrest⟩ := List.pairwise_cons.mp h
      cases chosen with
      | nil => exact Nat.zero_le _
      | cons c chosen =>
          obtain ⟨k, rfl⟩ := Nat.exists_eq_add_of_lt (Nat.lt_of_lt_of_le (Nat.succ_pos _) hk)
          rw [Nat.zero_add] at hk ⊢
          -- The first chosen entry gives way to the first of all, the others stay behind it.
          have hlater : chosen.Sublist entries := by
            rcases List.sublist_cons_iff.mp hchosen with hskip | ⟨rest, heq, hsub⟩
            · exact (List.sublist_cons_self c chosen).trans hskip
            · exact (List.cons.inj heq).2 ▸ hsub
          have hc : c.2.total ≤ e.2.total := by
            rcases List.mem_cons.mp (hchosen.subset List.mem_cons_self) with rfl | hmem
            · exact Nat.le_refl _
            · exact hfirst c hmem
          have htail := ih hrest hlater (Nat.le_of_succ_le_succ hk)
          rw [List.take_succ_cons, total_cons, total_cons]
          exact Nat.add_le_add hc htail

/-- The saving of a width: every send pays for the flag, the first ranks gain what lies beyond the
first segment. -/
theorem savingFrom_eq (width bits rank : Nat) (entries : List (Tag × SendCount)) :
    savingFrom width bits rank entries = ((width : Int) - bits) *
      (SendStats.mk (entries.take (Packing.range bits - rank))).total -
        (SendStats.mk entries).total := by
  induction entries generalizing rank with
  | nil => simp [savingFrom, total]
  | cons e entries ih =>
      rw [savingFrom, ih, price]
      by_cases hrank : rank < Packing.range bits
      · obtain ⟨k, hk⟩ := Nat.exists_eq_add_of_lt hrank
        have hhere : Packing.range bits - rank = k + 1 := by omega
        have hnext : Packing.range bits - (rank + 1) = k := by omega
        rw [if_pos hrank, hhere, hnext, List.take_succ_cons, total_cons, total_cons]
        push_cast
        ring
      · have hhere : Packing.range bits - rank = 0 := by omega
        have hnext : Packing.range bits - (rank + 1) = 0 := by omega
        rw [if_neg hrank, hhere, hnext, List.take_zero, List.take_zero, total_cons]
        push_cast
        ring

theorem spent_of_cheap {cost : Tag → Int} {cheap : Tag → Bool} {width bits : Nat}
    (h : ∀ t, cost t = if cheap t then (bits : Int) + 1 else width + 1)
    (entries : List (Tag × SendCount)) : spent cost entries =
      (width + 1) * (SendStats.mk entries).total -
        ((width : Int) - bits) * (SendStats.mk (entries.filter fun e => cheap e.1)).total := by
  induction entries with
  | nil => simp [spent, total]
  | cons e entries ih =>
      rw [spent, ih, h, total_cons]
      cases hcheap : cheap e.1 with
      | true =>
          rw [List.filter_cons_of_pos (by simpa using hcheap), total_cons, if_pos rfl]
          push_cast
          ring
      | false =>
          rw [List.filter_cons_of_neg (by simp [hcheap]), if_neg (by decide)]
          push_cast
          ring

/-- Whichever tags are the cheap ones, if there are no more of them than a first segment has values,
they save no more than the first ranks. -/
theorem le_spent {s : SendStats} {cost : Tag → Int} {cheap : Tag → Bool} {width bits : Nat}
    (hbits : bits ≤ width) (h : ∀ t, cost t = if cheap t then (bits : Int) + 1 else width + 1)
    (hfew : (s.ranked.filter fun e => cheap e.1).length ≤ Packing.range bits) :
    spent (fun _ => width) s.ranked - saving width s.ranked bits ≤ spent cost s.ranked := by
  have htotal := total_le_take s.ranked_decreasing List.filter_sublist hfew
  have hgain : ((width : Int) - bits) *
      (SendStats.mk (s.ranked.filter fun e => cheap e.1)).total ≤
        ((width : Int) - bits) * (SendStats.mk (s.ranked.take (Packing.range bits))).total := by
    refine Int.mul_le_mul_of_nonneg_left (Int.ofNat_le.mpr htotal) ?_
    omega
  rw [spent_of_cheap h, spent_const, saving, savingFrom_eq, Nat.sub_zero, Int.add_mul, Int.one_mul]
  omega

/-- The choice is at least as good as the incumbent and every candidate. It is the incumbent, or it is
better and the least of the candidates that are as good. -/
theorem cheapest_spec (gain : Nat → Int) {widths : List Nat} (h : widths.Pairwise (· < ·))
    (best : Nat × Int) :
    let chosen := cheapest gain widths best
    best.2 ≤ chosen.2 ∧ (∀ bits ∈ widths, gain bits ≤ chosen.2) ∧
      (chosen = best ∨ best.2 < chosen.2 ∧ chosen.1 ∈ widths ∧ gain chosen.1 = chosen.2 ∧
        ∀ bits ∈ widths, gain bits = chosen.2 → chosen.1 ≤ bits) := by
  induction widths generalizing best with
  | nil => exact ⟨Int.le_refl _, nofun, .inl rfl⟩
  | cons bits widths ih =>
      obtain ⟨hfirst, hrest⟩ := List.pairwise_cons.mp h
      simp only [cheapest, List.forall_mem_cons]
      by_cases hlt : best.2 < gain bits
      · rw [if_pos hlt]
        obtain ⟨hmore, hwidths, hchosen⟩ := ih hrest (bits, gain bits)
        refine ⟨hlt.le.trans hmore, ⟨hmore, hwidths⟩, .inr ?_⟩
        rcases hchosen with hkept | ⟨hbetter, hmem, hgain, hleast⟩
        · rw [hkept]
          refine ⟨hlt, List.mem_cons_self, rfl, fun _ => Nat.le_refl _, ?_⟩
          intro n hn _
          exact (hfirst n hn).le
        · refine ⟨hlt.trans hbetter, List.mem_cons_of_mem _ hmem, hgain, ?_, hleast⟩
          intro heq
          exact absurd heq hbetter.ne
      · rw [if_neg hlt]
        have hle : gain bits ≤ best.2 := not_lt.mp hlt
        obtain ⟨hmore, hwidths, hchosen⟩ := ih hrest best
        refine ⟨hmore, ⟨hle.trans hmore, hwidths⟩, ?_⟩
        rcases hchosen with hkept | ⟨hbetter, hmem, hgain, hleast⟩
        · exact .inl hkept
        · refine .inr ⟨hbetter, List.mem_cons_of_mem _ hmem, hgain, ?_, hleast⟩
          intro heq
          exact absurd heq (hle.trans_lt hbetter).ne

/-- A report suggests the least of the widths with the largest saving and the tags that fill a first
segment of this width. If no width saves anything, it advises against two segments. -/
structure Suggests (s : SendStats) (report : SendReport) : Prop where
  saves : 0 ≤ report.saved
  largest : ∀ bits, 0 < bits → bits < report.width → saving report.width s.ranked bits ≤ report.saved
  split : (∃ bits, 0 < bits ∧ bits < report.width ∧ 0 < saving report.width s.ranked bits) →
    0 < report.firstBits ∧ report.firstBits < report.width ∧
      saving report.width s.ranked report.firstBits = report.saved ∧
      (∀ bits, 0 < bits → bits < report.width → saving report.width s.ranked bits = report.saved →
        report.firstBits ≤ bits) ∧
      report.common = (s.ranked.take (Packing.range report.firstBits)).map (·.1.name)
  whole : (∀ bits, 0 < bits → bits < report.width → saving report.width s.ranked bits ≤ 0) →
    report.firstBits = report.width ∧ report.saved = 0 ∧ report.common = []

theorem report_suggests (s : SendStats) (width : Nat) : s.Suggests (s.report width) := by
  have hmem : ∀ bits, bits ∈ (List.range (width - 1)).map (· + 1) ↔ 0 < bits ∧ bits < width := by
    intro bits
    rw [List.mem_map]
    constructor
    · rintro ⟨n, hn, rfl⟩
      have := List.mem_range.mp hn
      omega
    · rintro ⟨hpos, hlt⟩
      exact ⟨bits - 1, List.mem_range.mpr (by omega), by omega⟩
  have hsorted : ((List.range (width - 1)).map (· + 1)).Pairwise (· < ·) := by
    rw [List.pairwise_map]
    exact List.pairwise_lt_range.imp Nat.succ_lt_succ
  obtain ⟨hpos, hlargest, hchosen⟩ :=
    cheapest_spec (saving width s.ranked) hsorted (width, 0)
  cases hc : cheapest (saving width s.ranked) ((List.range (width - 1)).map (· + 1)) (width, 0) with
  | mk bits saved =>
  simp only [hc, hmem] at hpos hlargest hchosen
  rw [report_eq hc]
  constructor
  case saves => exact hpos
  case largest =>
      intro n hn hlt
      exact hlargest n ⟨hn, hlt⟩
  case split =>
      rintro ⟨n, hn, hlt, hgain⟩
      have hsaved : 0 < saved := hgain.trans_le (hlargest n ⟨hn, hlt⟩)
      rcases hchosen with hnone | ⟨_, ⟨hbits, hbitslt⟩, heq, hleast⟩
      · exact absurd (congrArg Prod.snd hnone) hsaved.ne'
      · exact ⟨hbits, hbitslt, heq, fun m hm hmlt => hleast m ⟨hm, hmlt⟩, if_pos hbitslt⟩
  case whole =>
      intro hnothing
      rcases hchosen with hnone | ⟨hsaved, hbits, heq, _⟩
      · have hfirst : bits = width := congrArg Prod.fst hnone
        exact ⟨hfirst, congrArg Prod.snd hnone, if_neg hfirst.not_lt⟩
      · exact absurd (hnothing bits hbits.1 hbits.2) (heq ▸ hsaved.not_ge)

end TagTree.SendStats
