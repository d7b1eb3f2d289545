import TagTree.Proofs.Container.Union

/-!
# Containers made from a list

Adding the tags of a list one by one leaves the valid ones, each once and in the
order of first mention, with the cache that is computed from them at once.

The induction is on the list from its end, since adding is at the end: the
container of a longer list is the container of the shorter one with one more tag
added. The cache follows in step, because the cache of the explicit tags with
one more at the end is the old cache with the new ancestors added to it.

The closed form says that the explicit tags are the list without its invalid
tags and without repetitions. With it, statements about what is received, parsed
or filtered become statements about lists, and for a list of valid tags without
repetitions nothing happens to it at all.
-/
namespace TagTree.Container

theorem rebuilt_addFast (ts : List Tag) (t : Tag) : (rebuilt ts).addFast t = rebuilt (ts ++ [t]) := by
  rw [rebuilt, rebuilt, addFast, impliedParents, impliedParents, List.foldl_append]
  rfl

theorem rebuilt_add {ts : List Tag} {t : Tag} (hvalid : t.isValid) (hnew : t ∉ ts) :
    (rebuilt ts).add t = rebuilt (ts ++ [t]) := by
  have hfresh : ¬ (!t.isValid || (rebuilt ts).tags.contains t) := by simp [rebuilt, hvalid, hnew]
  rw [add, if_neg hfresh, rebuilt_addFast]

theorem ofList_append (ts : List Tag) (t : Tag) : ofList (ts ++ [t]) = (ofList ts).add t := by
  rw [ofList, ofList, addAll, addAll, List.foldl_append]
  rfl

theorem eraseDups_append_singleton (ts : List Tag) (t : Tag) :
    (ts ++ [t]).eraseDups = if t ∈ ts then ts.eraseDups else ts.eraseDups ++ [t] := by
  rw [List.eraseDups_append]
  by_cases h : t ∈ ts
  · simp [List.removeAll, h]
  · simp [List.removeAll, h, List.eraseDups_cons]

theorem foldl_addUnique_eq_eraseDups (ts : List Tag) : ts.foldl addUnique [] = ts.eraseDups := by
  induction ts using List.reverseRecOn with
  | nil => rfl
  | append_singleton ts t ih =>
      rw [List.foldl_append, List.foldl_cons, List.foldl_nil, ih,
        eraseDups_append_singleton, addUnique]
      simp only [List.contains_iff_mem, List.mem_eraseDups]

theorem nodup_eraseDups (ts : List Tag) : ts.eraseDups.Nodup := by
  rw [← foldl_addUnique_eq_eraseDups]
  exact nodup_foldl_addUnique List.nodup_nil ts

theorem eraseDups_of_nodup {ts : List Tag} (hn : ts.Nodup) : ts.eraseDups = ts := by
  rw [← foldl_addUnique_eq_eraseDups, foldl_addUnique_of_nodup hn]

theorem ofList_eq (ts : List Tag) : ofList ts = rebuilt (ts.filter Tag.isValid).eraseDups := by
  induction ts using List.reverseRecOn with
  | nil => rfl
  | append_singleton ts t ih =>
      rw [ofList_append, ih, List.filter_append]
      by_cases hv : t.isValid = true
      · rw [List.filter_cons_of_pos hv, List.filter_nil, eraseDups_append_singleton]
        by_cases hmem : t ∈ ts.filter Tag.isValid
        · have hold : (rebuilt (ts.filter Tag.isValid).eraseDups).tags.contains t = true := by
            simpa [rebuilt] using hmem
          rw [if_pos hmem, add, hold, hv]
          rfl
        · have hnew : (rebuilt (ts.filter Tag.isValid).eraseDups).tags.contains t = false := by
            simpa [rebuilt] using hmem
          rw [if_neg hmem, add, hnew, hv, ← rebuilt_addFast]
          rfl
      · rw [List.filter_cons_of_neg hv, List.filter_nil, List.append_nil, add]
        simp [hv]

/-- Valid tags without repetitions are taken as they are. -/
theorem ofList_of_nodup {ts : List Tag} (hvalid : ∀ t ∈ ts, t.isValid) (hn : ts.Nodup) :
    ofList ts = rebuilt ts := by
  induction ts using List.reverseRecOn with
  | nil => rfl
  | append_singleton ts t ih =>
      obtain ⟨hold, _, hnew⟩ := List.nodup_append.mp hn
      have ht : t ∉ ts := fun hmem => hnew t hmem t (List.mem_singleton_self t) rfl
      rw [ofList_append, ih (fun u hu => hvalid u (List.mem_append_left _ hu)) hold,
        rebuilt_add (hvalid t (by simp)) ht]

end TagTree.Container
