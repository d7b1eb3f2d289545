import TagTree.Proofs.Tree.Insertion

/-!
# Indices of nodes

The index that a node carries is a position of its tag in the index table.
Indexing a tree again makes this so for its table and gives every registered tag
of the table an index; registering a name keeps it, as new nodes carry no index.

`IndexedBy` relates a tree to the list of the tags of its table: whatever index
a node carries is a position at which its tag stands in that list. Assigning
goes through the list from the front and gives the positions out one after the
other, so the induction is on the list and generalizes the position of its first
tag.

The other half is that no tag of the table is left without an index. Once a node
has an index it keeps one while the rest of the list is gone through, so each
tag has to be looked at only when its turn comes. Forgetting all indices first
makes both hold for a table that has nothing to do with the one before.
-/
namespace TagTree.Tree

/-- Every index is a position of the node's tag. -/
def IndexedBy (t : Tree) (tags : List Tag) : Prop :=
  ∀ i k, (t.node i).index = some k → tags[k]? = some (t.node i).tag

theorem empty_indexedBy (tags : List Tag) : empty.IndexedBy tags := by
  intro i k hk
  have hnode : empty.node i = .root := by
    cases i with
    | zero => rfl
    | succ i => exact node_of_le (by simp [empty])
  rw [hnode] at hk
  cases hk

theorem IndexedBy.insert {t : Tree} {tags : List Tag} (ht : t.IndexedBy tags) (h : t.WellFormed)
    {name : String} (hname : Name.Proper name) (f : Entry → Entry) :
    (t.insert f name).IndexedBy tags := by
  obtain ⟨u, j, hext, _, hu⟩ := insert_spec h hname f
  rw [hu]
  intro i k hk
  have hindex : ((u.change j f).node i).index = (u.node i).index := by
    rw [node_change]
    split <;> rfl
  rw [hindex] at hk
  rw [(change_sameShape u j f).tag]
  by_cases hi : i < t.nodes.size
  · rw [hext.kept i hi] at hk ⊢
    exact ht i k hk
  · rw [(hext.fresh i (Nat.le_of_not_lt hi)).2] at hk
    cases hk

theorem index_assign {tags : List Tag} {t : Tree} {first i k : Nat} (h : t.WellFormed)
    (hk : ((t.assign first tags).node i).index = some k) :
    (t.node i).index = some k ∨ first ≤ k ∧ tags[k - first]? = some (t.node i).tag := by
  induction tags generalizing t first with
  | nil => exact .inl hk
  | cons tag tags ih =>
      have hlater : first + 1 ≤ k → (tag :: tags)[k - first]? = tags[k - (first + 1)]? := by
        intro hle
        have hsucc : k - first = k - (first + 1) + 1 := by omega
        rw [hsucc, List.getElem?_cons_succ]
      rw [assign] at hk
      cases hp : t.position? tag.name with
      | none =>
          rw [hp] at hk
          rcases ih h hk with hold | ⟨hle, htag⟩
          · exact .inl hold
          · exact .inr ⟨by omega, by rw [hlater hle, htag]⟩
      | some j =>
          rw [hp] at hk
          have hshape := setIndex_sameShape t j (some first)
          rcases ih (hshape.wellFormed h) hk with hold | ⟨hle, htag⟩
          · rw [node_setIndex] at hold
            split at hold
            · rename_i hj
              cases hold
              obtain ⟨_, _, hname⟩ := (h.names tag.name j).mp hp
              refine .inr ⟨Nat.le_refl _, ?_⟩
              rw [Nat.sub_self, List.getElem?_cons_zero, ← hj.1]
              exact congrArg (some ∘ Tag.mk) hname.symm
            · exact .inl hold
          · rw [hshape.tag] at htag
            exact .inr ⟨by omega, by rw [hlater hle, htag]⟩

theorem reindex_indexedBy {t : Tree} (h : t.WellFormed) (tags : List Tag) :
    (t.reindex tags).IndexedBy tags := by
  have hclear : SameShape t t.withoutIndices := withoutIndices_sameShape t
  intro i k hk
  rw [(reindex_sameShape t tags).tag]
  rcases index_assign (hclear.wellFormed h) hk with hold | ⟨_, htag⟩
  · rw [node_withoutIndices] at hold
    cases hold
  · rwa [hclear.tag] at htag

theorem isSome_index_assign {t : Tree} {i : Nat} (h : (t.node i).index.isSome) (first : Nat)
    (tags : List Tag) : ((t.assign first tags).node i).index.isSome := by
  induction tags generalizing t first with
  | nil => exact h
  | cons tag tags ih =>
      rw [assign]
      split
      · apply ih
        rw [node_setIndex]
        split
        · rfl
        · exact h
      · exact ih h _

theorem isSome_index_assign_of_mem {t : Tree} (h : t.WellFormed) {first i : Nat} {tags : List Tag}
    {tag : Tag} (hmem : tag ∈ tags) (hi : t.position? tag.name = some i) :
    ((t.assign first tags).node i).index.isSome := by
  induction tags generalizing t first with
  | nil => cases hmem
  | cons u tags ih =>
      rw [assign]
      rcases List.mem_cons.mp hmem with rfl | hmem
      · rw [hi]
        apply isSome_index_assign
        rw [node_setIndex, if_pos ⟨rfl, ((h.names _ i).mp hi).2.1⟩]
        rfl
      · split
        · rename_i j _
          have hshape := setIndex_sameShape t j (some first)
          exact ih (hshape.wellFormed h) hmem ((hshape.position? _).trans hi)
        · exact ih h hmem hi

theorem isSome_index_reindex {t : Tree} (h : t.WellFormed) {tags : List Tag} {tag : Tag} {i : Nat}
    (hmem : tag ∈ tags) (hi : t.position? tag.name = some i) :
    ((t.reindex tags).node i).index.isSome := by
  have hshape : SameShape t t.withoutIndices := withoutIndices_sameShape t
  exact isSome_index_assign_of_mem (hshape.wellFormed h) hmem ((hshape.position? _).trans hi)

end TagTree.Tree
