import TagTree.Proofs.Wire.Fields

/-!
# Two-segment indices, written and read

An index of at most 32 bits that is written comes back as it was, up to the bits
beyond its width, and the reader stops where the writer did. The cost is the
width itself for an index in one field, one bit more than the first segment for
a small index and one bit more than the width for a large one.

The bits of an index are written down as a list, by cases on whether it is sent
in one field and on whether it is small. Writing appends this list, and its
length is the cost. The facts about bits that are needed relate a number and its
remainder by a power of two to the bits below a place; comparisons with a mask
become statements about the bits above the first segment.

Reading looks at the first segment and the flag behind it as one number. For a
large index that number has the low bits and the flag, and joining it with the
second segment gives the index back up to its width; for a small one the flag is
missing and the number is the index. The cases of the reader are decided by the
same comparison as those of the writer.
-/
namespace TagTree

theorem fieldBits_succ (width value : Nat) :
    fieldBits (width + 1) value = fieldBits width value ++ [value.testBit width] := by
  rw [fieldBits, List.range_succ, List.map_append]
  rfl

theorem fieldBits_congr {width u v : Nat} (h : ∀ i < width, u.testBit i = v.testBit i) :
    fieldBits width u = fieldBits width v := by
  refine List.map_congr_left ?_
  intro i hi
  exact h i (List.mem_range.mp hi)

theorem testBit_of_lt_range {v width j : Nat} (h : v < Packing.range width) (hj : width ≤ j) :
    v.testBit j = false := by
  have hmod := testBit_mod_range v width j
  rw [Nat.mod_eq_of_lt h] at hmod
  rw [hmod, decide_eq_false (by omega), Bool.false_and]

theorem lt_range_of_testBit {v width : Nat} (h : ∀ j, width ≤ j → v.testBit j = false) :
    v < Packing.range width := by
  rw [Packing.range, Nat.one_shiftLeft]
  exact Nat.lt_pow_two_of_testBit v h

theorem range_le_range {m n : Nat} (h : m ≤ n) : Packing.range m ≤ Packing.range n := by
  rw [Packing.range, Packing.range, Nat.one_shiftLeft, Nat.one_shiftLeft]
  exact Nat.pow_le_pow_right (by decide) h

namespace Packing

theorem range_pos (width : Nat) : 0 < range width := by
  rw [range, Nat.one_shiftLeft]
  exact Nat.two_pow_pos width

theorem testBit_mask (first j : Nat) : (mask first).testBit j = decide (j < first) := by
  rw [mask, range, Nat.one_shiftLeft, Nat.testBit_two_pow_sub_one]

theorem mask_lt_iff {first index : Nat} : mask first < index ↔ range first ≤ index := by
  have hpos := range_pos first
  rw [mask]
  omega

theorem not_isWhole_iff {first total : Nat} :
    ¬ isWhole first total = true ↔ 0 < first ∧ first < total := by
  simp only [isWhole, Bool.or_eq_true, beq_iff_eq, decide_eq_true_eq, not_or]
  omega

def bits (first total index : Nat) : List Bool :=
  if isWhole first total then fieldBits total index
  else if mask first < index then
    fieldBits first index ++ true :: fieldBits (total - first) (index >>> first)
  else fieldBits first index ++ [false]

theorem length_bits (first total index : Nat) : (bits first total index).length =
    if isWhole first total then total
    else if mask first < index then first + 1 + (total - first) else first + 1 := by
  unfold bits
  split
  · exact length_fieldBits ..
  · split
    · rw [List.length_append, List.length_cons, length_fieldBits, length_fieldBits]
      omega
    · rw [List.length_append, length_fieldBits]
      rfl

def head (first index : Nat) : Nat := index % range first ||| range first

theorem testBit_head (first index j : Nat) : (head first index).testBit j =
    ((decide (j < first) && index.testBit j) || decide (j = first)) := by
  rw [head, Nat.testBit_or, testBit_mod_range, testBit_range]

theorem head_lt (first index : Nat) : head first index < range (first + 1) := by
  refine lt_range_of_testBit fun j hj => ?_
  rw [testBit_head, decide_eq_false (by omega), decide_eq_false (by omega)]
  rfl

theorem head_flag (first index : Nat) : head first index &&& range first ≠ 0 := by
  intro hzero
  have hbit := congrArg (Nat.testBit · first) hzero
  simp [testBit_head, testBit_range] at hbit

theorem fieldBits_head (first index : Nat) :
    fieldBits (first + 1) (head first index) = fieldBits first index ++ [true] := by
  have hlow : fieldBits first (head first index) = fieldBits first index := by
    refine fieldBits_congr ?_
    intro i hi
    rw [testBit_head, decide_eq_true hi, decide_eq_false (by omega), Bool.true_and, Bool.or_false]
  have htop : (head first index).testBit first = true := by simp [testBit_head]
  rw [fieldBits_succ, hlow, htop]

theorem join_head {first total : Nat} (hfirst : first < total) (htotal : total ≤ maxField)
    (index : Nat) :
    (((index >>> first) % range (total - first)) <<< first ||| head first index &&& mask first) %
      indexRange = index % range total := by
  have h32 : total ≤ 32 := htotal
  refine Nat.eq_of_testBit_eq fun j => ?_
  rw [indexRange, testBit_mod_range, testBit_mod_range, Nat.testBit_or, Nat.testBit_shiftLeft,
    testBit_mod_range, Nat.testBit_shiftRight, Nat.testBit_and, testBit_mask, testBit_head]
  -- The low bits come from the head without its flag, those up to `total` from the second segment.
  by_cases hj : j < first
  · have hge : ¬ j ≥ first := by omega
    have hne : ¬ j = first := by omega
    have hj32 : j < 32 := by omega
    have hjt : j < total := by omega
    simp [hj, hge, hne, hj32, hjt]
  · have hge : j ≥ first := by omega
    have hsum : first + (j - first) = j := by omega
    by_cases hjt : j < total
    · have hsub : j - first < total - first := by omega
      have hj32 : j < 32 := by omega
      simp [hj, hge, hsum, hjt, hsub, hj32]
    · have hsub : ¬ j - first < total - first := by omega
      simp [hj, hge, hjt, hsub]

theorem small_flag {first index : Nat} (h : index < range first) : index &&& range first = 0 := by
  refine Nat.eq_of_testBit_eq fun j => ?_
  rw [Nat.testBit_and, testBit_range, Nat.zero_testBit]
  by_cases hj : j = first
  · rw [hj, testBit_of_lt_range h (Nat.le_refl _), Bool.false_and]
  · rw [decide_eq_false hj, Bool.and_false]

section
variable {first total : Nat} (htotal : total ≤ maxField)
include htotal

theorem write_eq (w : BitWriter) (index : Nat) :
    write w first total index = w.writeAll (bits first total index) := by
  have hmin : ∀ n, n ≤ total → min n maxField = n := fun n hn => Nat.min_eq_left (by omega)
  unfold write bits
  split
  · rw [BitWriter.writeBits_eq, hmin total (Nat.le_refl _)]
  · rename_i hsplit
    have hfirst : first ≤ total := Nat.le_of_lt (not_isWhole_iff.mp hsplit).2
    split
    · have hlow : fieldBits first (index &&& mask first) = fieldBits first index := by
        refine fieldBits_congr ?_
        intro i hi
        rw [Nat.testBit_and, testBit_mask, decide_eq_true hi, Bool.and_true]
      dsimp only
      rw [BitWriter.writeBits_eq, BitWriter.writeBits_eq, BitWriter.writeBit_eq, hmin first hfirst,
        hmin _ (Nat.sub_le ..), hlow, ← BitWriter.writeAll_append, ← BitWriter.writeAll_append]
      rfl
    · rw [BitWriter.writeBits_eq, BitWriter.writeBit_eq, hmin first hfirst,
        ← BitWriter.writeAll_append]

theorem read_reads (index : Nat) :
    (read first total).Reads (bits first total index) (index % range total) := by
  have hmin : ∀ n, n ≤ total → min n maxField = n := fun n hn => Nat.min_eq_left (by omega)
  unfold read bits
  split
  · have hfield := BitReader.readBits_reads total index
    rwa [hmin total (Nat.le_refl _)] at hfield
  · rename_i hsplit
    have hfirst := (not_isWhole_iff.mp hsplit).2
    split
    · have hbits : fieldBits first index ++ true :: fieldBits (total - first) (index >>> first) =
          fieldBits (first + 1) (head first index) ++
            fieldBits (total - first) (index >>> first) := by
        rw [fieldBits_head, List.append_assoc]
        rfl
      have hhead := BitReader.readBits_reads (first + 1) (head first index)
      have hrest := (BitReader.readBits_reads (total - first) (index >>> first)).map
        fun high => (high <<< first ||| head first index &&& mask first) % indexRange
      rw [hmin (first + 1) hfirst, Nat.mod_eq_of_lt (head_lt ..)] at hhead
      rw [hmin _ (Nat.sub_le ..), join_head hfirst htotal] at hrest
      rw [hbits]
      refine hhead.bind ?_
      rw [if_pos (head_flag first index)]
      exact hrest
    · rename_i hsmall
      have hlt : index < range first := by
        rw [mask_lt_iff] at hsmall
        omega
      have hhead := BitReader.readBits_reads (first + 1) index
      rw [hmin (first + 1) hfirst, fieldBits_succ, testBit_of_lt_range hlt (Nat.le_refl _),
        Nat.mod_eq_of_lt (Nat.lt_of_lt_of_le hlt (range_le_range (Nat.le_succ _)))] at hhead
      rw [Nat.mod_eq_of_lt (Nat.lt_of_lt_of_le hlt (range_le_range (Nat.le_of_lt hfirst)))]
      refine hhead.last ?_
      rw [if_neg (fun hflag => hflag (small_flag hlt))]
      exact .pure index

end

def cost (first total index : Nat) : Nat :=
  if first = 0 ∨ total ≤ first then total
  else if index < range first then first + 1
  else total + 1

theorem length_bits_eq_cost (first total index : Nat) :
    (bits first total index).length = cost first total index := by
  rw [length_bits, cost]
  by_cases hwhole : isWhole first total = true
  · have hone : first = 0 ∨ total ≤ first := by simpa [isWhole] using hwhole
    rw [if_pos hwhole, if_pos hone]
  · obtain ⟨hpos, hlt⟩ := not_isWhole_iff.mp hwhole
    have htwo : ¬ (first = 0 ∨ total ≤ first) := by omega
    rw [if_neg hwhole, if_neg htwo]
    by_cases hshort : index < range first
    · have hmask : ¬ mask first < index := mt mask_lt_iff.mp (Nat.not_le_of_lt hshort)
      rw [if_neg hmask, if_pos hshort]
    · have hmask : mask first < index := mask_lt_iff.mpr (Nat.le_of_not_lt hshort)
      rw [if_pos hmask, if_neg hshort]
      omega

/-- An index that is written behind any bits and in front of any others is read back from where its
writing began, without the bits beyond its width. The reader stops where the writer did, and what lies
between is the cost. -/
theorem read_after_write {first total : Nat} (htotal : total ≤ 32) (index : Nat)
    (before after : List Bool) :
    let w := BitWriter.empty.writeAll before
    let sent := write w first total index
    let data := (sent.writeAll after).bytes
    sent.numBits = w.numBits + cost first total index ∧
      ∀ limit, sent.numBits ≤ limit →
        read first total ⟨data, w.numBits, limit⟩ =
            (.ok (index % range total), ⟨data, sent.numBits, limit⟩) ∧
          (index < range total → (read first total ⟨data, w.numBits, limit⟩).1 = .ok index) := by
  intro w sent data
  have hwriter : sent = .writeAll .empty (before ++ bits first total index) := by
    rw [BitWriter.writeAll_append]
    exact write_eq htotal w index
  have hend : sent.numBits = before.length + (bits first total index).length := by
    rw [hwriter, BitWriter.numBits_written, List.length_append]
  have hstart : w.numBits = before.length := BitWriter.numBits_written before
  have hdata : data = ((BitWriter.empty.writeAll (before ++ bits first total index)).writeAll
      after).bytes := by rw [← hwriter]
  constructor
  · rw [hend, hstart, length_bits_eq_cost]
  intro limit hlimit
  have hread : read first total ⟨data, w.numBits, limit⟩ =
      (.ok (index % range total), ⟨data, sent.numBits, limit⟩) := by
    rw [hend] at hlimit ⊢
    rw [hstart, hdata]
    exact read_reads htotal index _ (BitCursor.ahead_of_written before _ after hlimit)
  refine ⟨hread, ?_⟩
  intro hlt
  rw [hread, Nat.mod_eq_of_lt hlt]

/-- Two segments across the border of a byte; the index has a bit beyond its width. -/
theorem read_after_write_unaligned :
    let w := BitWriter.empty.writeAll [true, false, true, true, false]
    let sent := write w 3 12 5005
    let data := (sent.writeAll [true, true]).bytes
    12 ≤ 32 ∧ sent.numBits = w.numBits + 13 ∧
      read 3 12 ⟨data, w.numBits, sent.numBits⟩ =
        (.ok 909, ⟨data, sent.numBits, sent.numBits⟩) := by
  intro w sent data
  obtain ⟨hcost, hread⟩ :=
    @read_after_write 3 12 (by decide) 5005 [true, false, true, true, false] [true, true]
  exact ⟨by decide, hcost, (hread sent.numBits (Nat.le_refl _)).1⟩

end Packing
end TagTree
