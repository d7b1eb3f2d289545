import TagTree.Proofs.Wire.IndexTable
import TagTree.Proofs.Wire.Sending

/-!
# What a table lists

A table made with `m` bits lists the wanted tags and then the others by name, as
many as leave room for the sentinel among the numbers of `m` bits. The sentinel
is beyond every index, and an index takes the least width that holds it.

`Lists` puts what is known of the order, the capacity and the width into one
statement about a table. The listed tags are a beginning of the order, all of it
if there is room; the sentinel is a number of sixteen bits that is greater than
every index and stays below the number of values of the width; and no smaller
width holds it.

The requested width is brought between one and sixteen first, so the capacity is
two less than a power of two between 2 and 65536. With a width of one there is
no room for any tag. Then the table is empty and its sentinel is the number one,
which one bit holds.
-/
namespace TagTree.IndexTable

structure Lists (tags common : List Tag) (m : Nat) (t : IndexTable) : Prop where
  /-- The wanted tags in the order of their first mention, then the others by name. -/
  order : ∃ others, Increasing others ∧
    (∀ u, u ∈ others ↔ u ∈ tags ∧ u.isValid = true ∧ u ∉ common) ∧
    t.tags = ((common.filter fun u => tags.contains u && u.isValid).eraseDups ++ others).take
      (Packing.range m - 2)
  nodup : t.tags.Nodup
  /-- With room for all of them, every valid tag is listed. -/
  complete : (tags.filter Tag.isValid).eraseDups.length ≤ Packing.range m - 2 →
    t.tags.Perm (tags.filter Tag.isValid).eraseDups
  sentinel_eq : t.sentinel = t.tags.length + 1
  /-- The sentinel is a number of sixteen bits. -/
  sentinel_lt : t.sentinel < Packing.range 16
  no_entry : t.tagAt? t.sentinel = none
  /-- The width is the least one that holds the sentinel. -/
  least : ∀ bits, t.width ≤ bits ↔ t.sentinel < Packing.range bits
  width_le : t.width ≤ m

variable (tags common : List Tag)

theorem eraseDups_perm_ordered :
    (tags.filter Tag.isValid).eraseDups.Perm (ordered tags common) := by
  refine (List.perm_ext_iff_of_nodup (Container.nodup_eraseDups _)
    (nodup_ordered tags common)).mpr ?_
  intro u
  rw [mem_ordered, List.mem_eraseDups, List.mem_filter]

theorem clampWidth_le (maxBits : Nat) : clampWidth maxBits ≤ 16 := by
  unfold clampWidth
  omega

theorem sentinel_lt_range {t : IndexTable} {m : Nat} (hpos : 0 < m)
    (h : t.size ≤ Packing.range m - 2) : t.sentinel < Packing.range m := by
  have htwo : Packing.range 1 ≤ Packing.range m := range_le_range hpos
  have hone : Packing.range 1 = 2 := rfl
  have hsentinel : t.sentinel = t.size + 1 := rfl
  omega

theorem build_lists (maxBits : Nat) :
    (build tags common maxBits).value.Lists tags common (max 1 (min maxBits 16)) := by
  have hvalue : (build tags common maxBits).value.tags =
      (ordered tags common).take (Packing.range (max 1 (min maxBits 16)) - 2) := rfl
  have hsize : (build tags common maxBits).value.size ≤
      Packing.range (max 1 (min maxBits 16)) - 2 := by
    rw [size, hvalue]
    exact List.length_take_le ..
  have hfits := sentinel_lt_range (Nat.le_max_left ..) hsize
  obtain ⟨others, hinc, hmem, horder⟩ := ordered_eq tags common
  constructor
  case order => exact ⟨others, hinc, hmem, hvalue.trans (congrArg _ horder)⟩
  case nodup =>
      rw [hvalue]
      exact (nodup_ordered tags common).sublist (List.take_sublist ..)
  case complete =>
      intro hroom
      have hperm := eraseDups_perm_ordered tags common
      rw [hvalue, List.take_of_length_le (hperm.length_eq ▸ hroom)]
      exact hperm.symm
  case sentinel_eq => rfl
  case sentinel_lt => exact Nat.lt_of_lt_of_le hfits (range_le_range (clampWidth_le maxBits))
  case no_entry => exact List.getElem?_eq_none (Nat.le_succ _)
  case least => exact fun bits => width_le_iff _
  case width_le => exact (width_le_iff _).mpr hfits

end TagTree.IndexTable
