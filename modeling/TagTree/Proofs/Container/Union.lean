import Mathlib.Data.Finset.Card
import Mathlib.Data.List.Induction
import TagTree.Container

/-!
# Adding tags without repetition

`addUnique` grows a list at its end, and only by a tag that is not there.
Folding it over a list makes the union in the order of first mention: what was
there stays in front, nothing comes twice, and the members are those of both
lists.

Two ways of looking at the fold are used everywhere. By its members it is a
union. By its order it is the list without repetitions: starting from nothing it
keeps the first of each, and a list that has no repetitions comes out as it went
in. A list that brings nothing new changes nothing, and what comes twice in a
list counts once, so folding over two lists is folding over both in turn.

Lists that were grown in this way keep their beginnings, so a position that was
given out in such a list, as in the dictionary of a query, stays the position of
its tag.
-/
namespace TagTree

theorem addUnique_of_mem {list : List Tag} {t : Tag} (h : t ∈ list) : addUnique list t = list := by
  simp [addUnique, h]

theorem addUnique_of_not_mem {list : List Tag} {t : Tag} (h : t ∉ list) :
    addUnique list t = list ++ [t] := by
  simp [addUnique, h]

@[simp] theorem mem_addUnique {list : List Tag} {t u : Tag} :
    u ∈ addUnique list t ↔ u ∈ list ∨ u = t := by
  by_cases h : t ∈ list
  · rw [addUnique_of_mem h]
    exact ⟨.inl, fun hu => hu.elim id fun he => he ▸ h⟩
  · simp [addUnique_of_not_mem h]

theorem prefix_addUnique (list : List Tag) (t : Tag) : list <+: addUnique list t := by
  by_cases h : t ∈ list
  · rw [addUnique_of_mem h]
  · rw [addUnique_of_not_mem h]
    exact List.prefix_append ..

theorem nodup_addUnique {list : List Tag} (hn : list.Nodup) (t : Tag) :
    (addUnique list t).Nodup := by
  by_cases h : t ∈ list
  · rwa [addUnique_of_mem h]
  · rw [addUnique_of_not_mem h]
    exact List.nodup_append.mpr ⟨hn, List.nodup_singleton t, by
      intro a ha b hb hab
      rw [List.mem_singleton.mp hb] at hab
      exact h (hab ▸ ha)⟩

@[simp] theorem mem_foldl_addUnique {ts list : List Tag} {u : Tag} :
    u ∈ ts.foldl addUnique list ↔ u ∈ list ∨ u ∈ ts := by
  induction ts generalizing list with
  | nil => simp
  | cons t ts ih => rw [List.foldl_cons, ih, mem_addUnique, List.mem_cons, or_assoc]

theorem prefix_foldl_addUnique (ts list : List Tag) : list <+: ts.foldl addUnique list := by
  induction ts generalizing list with
  | nil => exact List.prefix_refl list
  | cons t ts ih => exact (prefix_addUnique list t).trans (ih _)

theorem nodup_foldl_addUnique {list : List Tag} (hn : list.Nodup) (ts : List Tag) :
    (ts.foldl addUnique list).Nodup := by
  induction ts generalizing list with
  | nil => exact hn
  | cons t ts ih => exact ih (nodup_addUnique hn t)

theorem foldl_addUnique_of_subset {ts list : List Tag} (h : ts ⊆ list) :
    ts.foldl addUnique list = list := by
  induction ts with
  | nil => rfl
  | cons t ts ih =>
      obtain ⟨ht, hts⟩ := List.cons_subset.mp h
      rw [List.foldl_cons, addUnique_of_mem ht, ih hts]

/-- What comes twice in a list makes no difference to a union with it. -/
theorem foldl_addUnique_nil (ts list : List Tag) :
    (ts.foldl addUnique []).foldl addUnique list = ts.foldl addUnique list := by
  induction ts using List.reverseRecOn with
  | nil => rfl
  | append_singleton ts t ih =>
      rw [List.foldl_append, List.foldl_append, List.foldl_cons, List.foldl_nil, List.foldl_cons,
        List.foldl_nil, ← ih]
      by_cases h : t ∈ ts.foldl addUnique []
      · have hmem : t ∈ (ts.foldl addUnique []).foldl addUnique list :=
          mem_foldl_addUnique.mpr (.inr h)
        rw [addUnique_of_mem h, addUnique_of_mem hmem]
      · rw [addUnique_of_not_mem h, List.foldl_append, List.foldl_cons, List.foldl_nil]

theorem foldl_addUnique_of_nodup {ts : List Tag} (hn : ts.Nodup) : ts.foldl addUnique [] = ts := by
  induction ts using List.reverseRecOn with
  | nil => rfl
  | append_singleton ts t ih =>
      obtain ⟨hold, _, hnew⟩ := List.nodup_append.mp hn
      have ht : t ∉ ts := fun hmem => hnew t hmem t (List.mem_singleton_self t) rfl
      rw [List.foldl_append, List.foldl_cons, List.foldl_nil, ih hold, addUnique_of_not_mem ht]

theorem length_foldl_addUnique_nil (ts : List Tag) :
    (ts.foldl addUnique []).length = ts.toFinset.card := by
  rw [← List.toFinset_card_of_nodup (nodup_foldl_addUnique List.nodup_nil ts)]
  congr 1
  ext u
  simp

end TagTree
