import Mathlib.Data.List.Sort
import TagTree.Proofs.Container.Rebuilt
import TagTree.Proofs.Tree.Search
import TagTree.Wire.IndexTable

/-!
# The order of an index table

A table holds the valid tags of the list it is made from, each once: in front
the wanted ones in the order of their first mention, behind them the others by
name. So it depends on which tags there are, but neither on their order nor on
how often one occurs.

Sorting by insertion gives the increasing list of the distinct tags, and two
increasing lists with the same members are equal, so the order of the input is
forgotten. The search by halving is then membership in that list.

The front is the list of wanted tags without those that are not registered and
without repetitions. The whole order is the front with the rest of the sorted
tags behind it, and it is a permutation of the registered valid tags. If two
lists have the same valid tags and the same wish for the front, their orders are
equal; this is the reason why peers agree on indices.
-/
namespace TagTree.IndexTable

def Increasing (tags : List Tag) : Prop := tags.Pairwise fun a b => a.name < b.name

instance : Std.Irrefl fun a b : Tag => a.name < b.name := ⟨fun t => String.lt_irrefl t.name⟩

instance : Std.Antisymm fun a b : Tag => a.name < b.name :=
  ⟨fun _ _ h h' => absurd h' (String.lt_asymm h)⟩

@[simp] theorem mem_insertSorted {tag t : Tag} {tags : List Tag} :
    t ∈ insertSorted tag tags ↔ t = tag ∨ t ∈ tags := by
  induction tags with
  | nil => simp [insertSorted]
  | cons u rest ih =>
      rw [insertSorted]
      split
      · exact List.mem_cons
      · split
        · rename_i he
          simp [he]
        · rw [List.mem_cons, ih, List.mem_cons]
          exact or_left_comm

theorem increasing_insertSorted {tags : List Tag} (h : Increasing tags) (tag : Tag) :
    Increasing (insertSorted tag tags) := by
  induction tags with
  | nil => exact List.pairwise_singleton ..
  | cons u rest ih =>
      obtain ⟨hfirst, hrest⟩ := List.pairwise_cons.mp h
      rw [insertSorted]
      split
      · rename_i hlt
        refine List.pairwise_cons.mpr ⟨?_, h⟩
        intro t ht
        rcases List.mem_cons.mp ht with rfl | ht
        · exact hlt
        · exact String.lt_trans hlt (hfirst t ht)
      · rename_i hge
        split
        · exact h
        · rename_i hne
          refine List.pairwise_cons.mpr ⟨?_, ih hrest⟩
          intro t ht
          rcases mem_insertSorted.mp ht with rfl | ht
          · have hname : u.name ≠ t.name := fun he => hne (congrArg Tag.mk he.symm)
            have hle : u.name ≤ t.name := String.not_lt.mp hge
            exact String.not_le.mp fun hle' => hname (String.le_antisymm hle hle')
          · exact hfirst t ht

@[simp] theorem mem_sortDistinct {tags : List Tag} {t : Tag} : t ∈ sortDistinct tags ↔ t ∈ tags := by
  induction tags with
  | nil => rfl
  | cons u tags ih => rw [sortDistinct, List.foldr_cons, mem_insertSorted, ← sortDistinct, ih,
      List.mem_cons]

theorem increasing_sortDistinct (tags : List Tag) : Increasing (sortDistinct tags) := by
  induction tags with
  | nil => exact List.Pairwise.nil
  | cons u tags ih => exact increasing_insertSorted ih u

theorem sortDistinct_congr {tags tags' : List Tag} (h : ∀ t, t ∈ tags ↔ t ∈ tags') :
    sortDistinct tags = sortDistinct tags' := by
  refine (increasing_sortDistinct tags).eq_of_mem_iff (increasing_sortDistinct tags') ?_
  intro t
  rw [mem_sortDistinct, mem_sortDistinct, h]

theorem occurs_eq {tags : List Tag} (h : Increasing tags) (t : Tag) :
    occurs tags t = tags.contains t := by
  have hget : ∀ k (hk : k < tags.length), tags.getD k .invalid = tags.get ⟨k, hk⟩ := by
    intro k hk
    rw [List.getD_eq_getElem?_getD, List.getElem?_eq_getElem hk]
    rfl
  unfold occurs
  cases hsearch : bisect (fun k => (tags.getD k .invalid).name) t.name tags.length 0 tags.length with
  | ok k =>
      obtain ⟨_, hk, hname⟩ := bisect_ok hsearch
      rw [hget k hk] at hname
      have hmem : t ∈ tags := by
        have hsame : tags.get ⟨k, hk⟩ = t := congrArg Tag.mk hname
        rw [← hsame]
        exact List.get_mem ..
      exact (List.contains_iff_mem.mpr hmem).symm
  | error k =>
      have hnames : ∀ i j, 0 ≤ i → i < j → j < tags.length →
          (tags.getD i .invalid).name < (tags.getD j .invalid).name := by
        intro i j _ hij hj
        rw [hget i (Nat.lt_trans hij hj), hget j hj]
        exact List.pairwise_iff_getElem.mp h i j (Nat.lt_trans hij hj) hj hij
      obtain ⟨_, _, hlow, hhigh⟩ := bisect_error (Nat.le_refl _) (Nat.zero_le _) hnames hsearch
      refine (Bool.eq_false_iff.mpr fun hcontains => ?_).symm
      obtain ⟨j, hj⟩ := List.get_of_mem (List.contains_iff_mem.mp hcontains)
      have hname : (tags.getD j.val .invalid).name = t.name := by rw [hget j.val j.isLt, hj]
      -- The tag would stand on one of the two sides, where no name is its own.
      rcases Nat.lt_or_ge j.val k with hjk | hjk
      · exact String.lt_irrefl _ (hname ▸ hlow j.val (Nat.zero_le _) hjk)
      · exact String.lt_irrefl _ (hname ▸ hhigh j.val hjk j.isLt)

section
variable {tags : List Tag} (h : Increasing tags)
include h

theorem front_eq (wanted : List Tag) :
    front tags wanted = (wanted.filter tags.contains).foldl addUnique [] := by
  suffices hacc : ∀ acc, wanted.foldl
      (fun acc t => if occurs tags t then front.addFirst acc t else acc) acc =
        (wanted.filter tags.contains).foldl addUnique acc from hacc []
  induction wanted with
  | nil => exact fun _ => rfl
  | cons t wanted ih =>
      intro acc
      rw [List.foldl_cons, List.filter_cons, ih, occurs_eq h]
      split <;> rfl

theorem mem_front {wanted : List Tag} {t : Tag} :
    t ∈ front tags wanted ↔ t ∈ tags ∧ t ∈ wanted := by
  simp [front_eq h, and_comm]

theorem nodup_front (wanted : List Tag) : (front tags wanted).Nodup := by
  rw [front_eq h]
  exact nodup_foldl_addUnique List.nodup_nil _

end

theorem mem_ordered {tags common : List Tag} {t : Tag} :
    t ∈ ordered tags common ↔ t ∈ tags ∧ t.isValid = true := by
  have hsorted : t ∈ sortDistinct (tags.filter Tag.isValid) ↔ t ∈ tags ∧ t.isValid = true := by
    rw [mem_sortDistinct, List.mem_filter]
  have hinc := increasing_sortDistinct (tags.filter Tag.isValid)
  rw [← hsorted]
  unfold ordered
  by_cases hc : t ∈ common <;> simp [mem_front hinc, hc]

theorem nodup_ordered (tags common : List Tag) : (ordered tags common).Nodup := by
  refine List.Nodup.append (nodup_front (increasing_sortDistinct _) common) ?_ ?_
  · refine List.Pairwise.filter _ ?_
    refine (increasing_sortDistinct _).imp ?_
    rintro t _ hlt rfl
    exact String.lt_irrefl _ hlt
  · intro t hfront hrest
    have hnot := (List.mem_filter.mp hrest).2
    simp [hfront] at hnot

theorem ordered_congr {tags tags' : List Tag} (h : ∀ t, t ∈ tags ↔ t ∈ tags') (common : List Tag) :
    ordered tags common = ordered tags' common := by
  have hsorted : sortDistinct (tags.filter Tag.isValid) = sortDistinct (tags'.filter Tag.isValid) := by
    refine sortDistinct_congr ?_
    intro t
    rw [List.mem_filter, List.mem_filter, h]
  rw [ordered, ordered, hsorted]

theorem ordered_perm {tags : List Tag} (hnodup : tags.Nodup) (hvalid : ∀ t ∈ tags, t.isValid = true)
    (common : List Tag) : (ordered tags common).Perm tags := by
  refine (List.perm_ext_iff_of_nodup (nodup_ordered tags common) hnodup).mpr ?_
  intro t
  rw [mem_ordered]
  exact ⟨And.left, fun ht => ⟨ht, hvalid t ht⟩⟩

/-- The front is the wanted tags that there are, the rest is the others by name. -/
theorem ordered_eq (tags common : List Tag) : ∃ others, Increasing others ∧
    (∀ u, u ∈ others ↔ u ∈ tags ∧ u.isValid = true ∧ u ∉ common) ∧
    ordered tags common =
      (common.filter fun u => tags.contains u && u.isValid).eraseDups ++ others := by
  have hinc := increasing_sortDistinct (tags.filter Tag.isValid)
  have hmem : ∀ u, u ∈ sortDistinct (tags.filter Tag.isValid) ↔ u ∈ tags ∧ u.isValid = true := by
    intro u
    rw [mem_sortDistinct, List.mem_filter]
  have hrest : Increasing ((sortDistinct (tags.filter Tag.isValid)).filter fun u =>
      !(front (sortDistinct (tags.filter Tag.isValid)) common).contains u) := hinc.filter _
  refine ⟨_, hrest, ?_, ?_⟩
  · intro u
    have hfront : u ∈ front (sortDistinct (tags.filter Tag.isValid)) common ↔
        (u ∈ tags ∧ u.isValid = true) ∧ u ∈ common := by rw [mem_front hinc, hmem]
    rw [List.mem_filter, hmem, Bool.not_eq_true', ← Bool.not_eq_true, List.contains_iff_mem, hfront]
    constructor
    · exact fun ⟨hu, hnot⟩ => ⟨hu.1, hu.2, fun hc => hnot ⟨hu, hc⟩⟩
    · exact fun ⟨ht, hv, hnot⟩ => ⟨⟨ht, hv⟩, fun hf => hnot hf.2⟩
  · have hwanted : common.filter (sortDistinct (tags.filter Tag.isValid)).contains =
        common.filter fun u => tags.contains u && u.isValid := by
      refine List.filter_congr fun u _ => Bool.eq_iff_iff.mpr ?_
      rw [List.contains_iff_mem, hmem, Bool.and_eq_true, List.contains_iff_mem]
    rw [ordered, front_eq hinc, hwanted, Container.foldl_addUnique_eq_eraseDups]

/-- Wanted tags that are all there come first. -/
theorem prefix_ordered {tags common : List Tag} (hsub : common ⊆ tags)
    (hvalid : ∀ t ∈ tags, t.isValid = true) : common.eraseDups <+: ordered tags common := by
  obtain ⟨others, _, _, heq⟩ := ordered_eq tags common
  have hall : (common.filter fun u => tags.contains u && u.isValid) = common := by
    refine List.filter_eq_self.mpr fun u hu => ?_
    rw [Bool.and_eq_true, List.contains_iff_mem]
    exact ⟨hsub hu, hvalid u (hsub hu)⟩
  rw [heq, hall]
  exact List.prefix_append ..

end TagTree.IndexTable
