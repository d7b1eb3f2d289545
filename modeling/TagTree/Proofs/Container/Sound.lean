import TagTree.Proofs.Container.Rebuilt
import TagTree.Proofs.Container.Union
import TagTree.Proofs.Name.Ancestors

/-!
# Sound containers

A container is sound if its explicit tags are valid, none occurs twice, and its
cache is the one that is computed from them at once. Insertions and unions
extend the old cache instead, which comes to the same: the ancestors of a tag
that was there are in the cache already, and so are the ancestors of an
ancestor. In a sound container `has` asks whether some explicit tag is the tag
or below it.

The fields of `Sound` are what an operation has to preserve: valid explicit
tags, no repetitions, and a cache that is equal to `impliedParents` of the
explicit tags, in members and in order. A sound container is therefore
determined by its explicit tags, as the rebuilt one of them.

For insertions the cache is extended by the ancestors of the new tag, and
`impliedParents` of a longer list is computed in the same way, from the front. A
union adds one cache to the other; ancestors that both sides imply are in the
first cache already, and the order of first mention is the same as for the tags
one after the other. Removals compute the cache anew, so they have nothing to
prove but that a part of a good list is good.
-/
namespace TagTree

namespace Tag

theorem mem_parents {p t : Tag} : p ∈ t.parents ↔ p.name ∈ Name.ancestors t.name := by
  rw [parents, List.mem_map]
  constructor
  · rintro ⟨m, hm, rfl⟩
    exact hm
  · intro h
    exact ⟨p.name, h, rfl⟩

theorem parents_trans {p q t : Tag} (hp : p ∈ q.parents) (hq : q ∈ t.parents) : p ∈ t.parents := by
  rw [mem_parents] at hp hq ⊢
  exact Name.ancestors_trans hp hq

end Tag

namespace Container

theorem impliedParents_append (ts us : List Tag) : impliedParents (ts ++ us) =
    (us.flatMap Tag.parents).foldl addUnique (impliedParents ts) := by
  rw [impliedParents, impliedParents, List.foldl_append, List.foldl_flatMap]

theorem impliedParents_eq (ts : List Tag) :
    impliedParents ts = (ts.flatMap Tag.parents).foldl addUnique [] :=
  impliedParents_append [] ts

theorem mem_impliedParents {ts : List Tag} {p : Tag} :
    p ∈ impliedParents ts ↔ ∃ t ∈ ts, p ∈ t.parents := by
  simp [impliedParents_eq]

theorem impliedParents_addUnique (ts : List Tag) (t : Tag) :
    impliedParents (addUnique ts t) = t.parents.foldl addUnique (impliedParents ts) := by
  by_cases h : t ∈ ts
  · have hsubset : t.parents ⊆ impliedParents ts := fun p hp => mem_impliedParents.mpr ⟨t, h, hp⟩
    rw [addUnique_of_mem h, foldl_addUnique_of_subset hsubset]
  · rw [addUnique_of_not_mem h, impliedParents_append]
    simp

theorem impliedParents_union (ts us : List Tag) : impliedParents (us.foldl addUnique ts) =
    (us.flatMap Tag.parents).foldl addUnique (impliedParents ts) := by
  induction us generalizing ts with
  | nil => rfl
  | cons u us ih =>
      rw [List.foldl_cons, ih, impliedParents_addUnique, List.flatMap_cons, List.foldl_append]

theorem mem_add {c : Container} {t u : Tag} :
    u ∈ (c.add t).tags ↔ u ∈ c.tags ∨ u = t ∧ t.isValid := by
  unfold add
  split
  · rename_i hskip
    rw [Bool.or_eq_true, List.contains_iff_mem, Bool.not_eq_true'] at hskip
    constructor
    · exact .inl
    · rintro (hu | ⟨rfl, hvalid⟩)
      · exact hu
      · rcases hskip with hbad | hmem
        · rw [hvalid] at hbad
          cases hbad
        · exact hmem
  · rename_i hnew
    have hvalid : t.isValid = true := by
      cases hv : t.isValid
      · exact absurd (by simp [hv]) hnew
      · rfl
    simp [addFast, hvalid]

theorem mem_addAll {c : Container} {ts : List Tag} {u : Tag} :
    u ∈ (c.addAll ts).tags ↔ u ∈ c.tags ∨ u ∈ ts ∧ u.isValid := by
  induction ts generalizing c with
  | nil => simp [addAll]
  | cons t ts ih =>
      have hstep : c.addAll (t :: ts) = (c.add t).addAll ts := rfl
      rw [hstep, ih, mem_add, or_assoc, List.mem_cons, or_and_right]
      constructor
      · rintro (hu | ⟨rfl, hv⟩ | hu)
        · exact .inl hu
        · exact .inr (.inl ⟨rfl, hv⟩)
        · exact .inr (.inr hu)
      · rintro (hu | ⟨rfl, hv⟩ | hu)
        · exact .inl hu
        · exact .inr (.inl ⟨rfl, hv⟩)
        · exact .inr (.inr hu)

theorem tags_removeFirst (c : Container) (p : Tag → Bool) :
    (c.removeFirst p).2.tags = c.tags.eraseP p := by
  unfold removeFirst
  split
  · rfl
  · rename_i hnone
    rw [List.eraseP_of_forall_not]
    intro t ht hp
    exact hnone (List.any_eq_true.mpr ⟨t, ht, hp⟩)

theorem tags_restrict (c : Container) (keep : Tag → Bool) :
    (c.restrict keep).2.tags = c.tags.filter keep := by
  unfold restrict
  dsimp only
  split
  · rename_i hlength
    exact (List.filter_sublist.eq_of_length hlength).symm
  · rfl

/-- A valid tag that is not there at all comes in as a leaf, once its ancestors have gone. -/
theorem addLeaf_eq (c : Container) (t : Tag) : c.addLeaf t =
    if t.isValid ∧ ¬ c.has t then (true, (c.restrict fun e => !t.parents.contains e).2.add t)
    else (t.isValid && c.hasExact t, c) := by
  have hexact : c.hasExact t = true → c.has t = true := by
    simp only [hasExact, has, Bool.and_eq_true, Bool.or_eq_true]
    exact fun h => ⟨h.1, .inl h.2⟩
  unfold addLeaf restrict
  cases hv : t.isValid <;> cases hh : c.has t <;> cases he : c.hasExact t <;> simp_all
  split <;> rfl

theorem mem_of_mem_addLeaf {c : Container} {t u : Tag} (h : u ∈ (c.addLeaf t).2.tags) :
    u ∈ c.tags ∨ u = t ∧ t.isValid := by
  rw [addLeaf_eq] at h
  split at h
  · rcases mem_add.mp h with hu | hu
    · rw [tags_restrict] at hu
      exact .inl (List.mem_filter.mp hu).1
    · exact .inr hu
  · exact .inl h

structure Sound (c : Container) : Prop where
  valid : ∀ t ∈ c.tags, t.isValid
  nodup : c.tags.Nodup
  cached : c.parents = impliedParents c.tags

theorem empty_sound : empty.Sound := ⟨by simp [empty], List.nodup_nil, rfl⟩

theorem rebuilt_sound {ts : List Tag} (hvalid : ∀ t ∈ ts, t.isValid) (hnodup : ts.Nodup) :
    (rebuilt ts).Sound := ⟨hvalid, hnodup, rfl⟩

namespace Sound
variable {c d : Container} (h : c.Sound)
include h

theorem eq_rebuilt : c = rebuilt c.tags := by
  rw [rebuilt, ← h.cached]

theorem rebuilt_sublist {ts : List Tag} (hsub : ts.Sublist c.tags) : (rebuilt ts).Sound :=
  rebuilt_sound (fun t ht => h.valid t (hsub.subset ht)) (h.nodup.sublist hsub)

theorem addFast {t : Tag} (hvalid : t.isValid) (hnew : t ∉ c.tags) : (c.addFast t).Sound := by
  have hnodup : (c.tags ++ [t]).Nodup := by
    rw [← addUnique_of_not_mem hnew]
    exact nodup_addUnique h.nodup t
  rw [h.eq_rebuilt, rebuilt_addFast]
  apply rebuilt_sound _ hnodup
  intro u hu
  rcases List.mem_append.mp hu with hu | hu
  · exact h.valid u hu
  · rwa [List.mem_singleton.mp hu]

theorem add (t : Tag) : (c.add t).Sound := by
  unfold Container.add
  split
  · exact h
  · rename_i hnew
    simp only [Bool.or_eq_true, Bool.not_eq_true', not_or, Bool.not_eq_false,
      List.contains_iff_mem] at hnew
    exact h.addFast hnew.1 hnew.2

theorem addAll (ts : List Tag) : (c.addAll ts).Sound := by
  induction ts generalizing c with
  | nil => exact h
  | cons t ts ih => exact ih (h.add t)

theorem append (hd : d.Sound) : (c.append d).Sound := by
  constructor
  case valid =>
      intro t ht
      rcases mem_foldl_addUnique.mp ht with ht | ht
      · exact h.valid t ht
      · exact hd.valid t ht
  case nodup => exact nodup_foldl_addUnique h.nodup d.tags
  case cached =>
      have hunion : (c.append d).parents = d.parents.foldl addUnique c.parents := rfl
      rw [hunion, h.cached, hd.cached, impliedParents_eq d.tags, foldl_addUnique_nil]
      exact (impliedParents_union c.tags d.tags).symm

theorem withParents (hvalid : ∀ p ∈ c.parents, p.isValid) : c.withParents.Sound := by
  have hclosed : c.parents.flatMap Tag.parents ⊆ impliedParents c.tags := by
    intro p hp
    obtain ⟨q, hq, hpq⟩ := List.mem_flatMap.mp hp
    rw [h.cached] at hq
    obtain ⟨t, ht, hqt⟩ := mem_impliedParents.mp hq
    exact mem_impliedParents.mpr ⟨t, ht, Tag.parents_trans hpq hqt⟩
  constructor
  case valid =>
      intro t ht
      rcases mem_foldl_addUnique.mp ht with ht | ht
      · exact h.valid t ht
      · exact hvalid t ht
  case nodup => exact nodup_foldl_addUnique h.nodup c.parents
  case cached =>
      have hunion := impliedParents_union c.tags c.parents
      rw [foldl_addUnique_of_subset hclosed] at hunion
      exact h.cached.trans hunion.symm

theorem restrict (keep : Tag → Bool) : (c.restrict keep).2.Sound := by
  unfold Container.restrict
  dsimp only
  split
  · exact h
  · exact h.rebuilt_sublist List.filter_sublist

theorem removeFirst (p : Tag → Bool) : (c.removeFirst p).2.Sound := by
  unfold Container.removeFirst
  split
  · exact h.rebuilt_sublist List.eraseP_sublist
  · exact h

theorem addLeaf (t : Tag) : (c.addLeaf t).2.Sound := by
  rw [addLeaf_eq]
  split
  · exact (h.restrict _).add t
  · exact h

theorem mem_remove {t u : Tag} : u ∈ (c.remove t).2.tags ↔ u ∈ c.tags ∧ u ≠ t := by
  rw [Container.remove, tags_removeFirst, ← List.erase_eq_eraseP', h.nodup.mem_erase_iff, and_comm]

/-- Looking into both lists is asking every explicit tag. -/
theorem has_eq (x : Tag) : c.has x = c.tags.any (·.isUnder x) := by
  rw [Bool.eq_iff_iff, List.any_eq_true, has]
  simp only [Bool.and_eq_true, Bool.or_eq_true, List.contains_iff_mem, Tag.isUnder, beq_iff_eq,
    h.cached, mem_impliedParents]
  constructor
  · rintro ⟨hx, hmem | ⟨t, ht, hp⟩⟩
    · exact ⟨x, hmem, ⟨hx, hx⟩, .inl rfl⟩
    · exact ⟨t, ht, ⟨h.valid t ht, hx⟩, .inr hp⟩
  · rintro ⟨t, ht, ⟨_, hx⟩, rfl | hp⟩
    · exact ⟨hx, .inl ht⟩
    · exact ⟨hx, .inr ⟨t, ht, hp⟩⟩

end Sound

end Container
end TagTree
