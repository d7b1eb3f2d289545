import Mathlib.Data.List.Sort
import TagTree.Proofs.Container.Rebuilt
import TagTree.Proofs.Name.Order
import TagTree.Proofs.Tree.Shape

/-!
# Walks down and up

A walk down takes a position from its stack and puts the children in its place.
Children stand behind their parents, so every stack is emptied in the end. What
is met is what the stack leads to, and if the positions on the stack lead to
places apart from one another, one after the other, it is met in the order of
the paths. The way up from a node goes along its path.

`Empties` tells which positions a stack leads to, by induction on the steps of
the walk and without their number. That every stack is emptied follows from the
positions, since children stand behind their parents and there are finitely
many; with as many steps as there are nodes the walk is complete.

The order of what is met is proved on paths. A stack is good if its positions
lead to places that lie apart, the first before the second; a step keeps this,
since the children of a node lie apart in the order of their segments and inside
the place of the node. So the walk below a node lists exactly the nodes whose
names are below its name, in the order of names, and the walk from the root
lists every tag once.
-/
namespace TagTree.Tree

/-- The walk that starts with a stack ends, with these positions met on the way. -/
inductive Empties (t : Tree) : List Nat → List Nat → Prop
  | done : Empties t [] []
  | step {i : Nat} {stack met : List Nat} (rest : Empties t ((t.node i).children ++ stack) met) :
      Empties t (i :: stack) (i :: met)

namespace Empties
variable {t : Tree} {stack met : List Nat}

theorem append (h : Empties t stack met) {stack' met' : List Nat} (h' : Empties t stack' met') :
    Empties t (stack ++ stack') (met ++ met') := by
  induction h with
  | done => exact h'
  | step _ ih =>
      rw [List.append_assoc] at ih
      exact .step ih

/-- With enough steps the walk meets all of it. -/
theorem unwind_eq (h : Empties t stack met) {fuel : Nat} (hfuel : met.length ≤ fuel) :
    t.unwind fuel stack = met := by
  induction h generalizing fuel with
  | done => cases fuel <;> rfl
  | step _ ih =>
      cases fuel with
      | zero => cases hfuel
      | succ fuel => rw [unwind, ih (Nat.le_of_succ_le_succ hfuel)]

theorem of_singletons {stack : List Nat} (h : ∀ i ∈ stack, ∃ met, Empties t [i] met) :
    ∃ met, Empties t stack met := by
  induction stack with
  | nil => exact ⟨[], .done⟩
  | cons i stack ih =>
      obtain ⟨first, hfirst⟩ := h i List.mem_cons_self
      obtain ⟨rest, hrest⟩ := ih fun j hj => h j (List.mem_cons_of_mem i hj)
      exact ⟨first ++ rest, hfirst.append hrest⟩

end Empties

/-- A position of a node other than the root. -/
def Inner (t : Tree) (i : Nat) : Prop := 0 < i ∧ i < t.nodes.size

def pathAt (t : Tree) (i : Nat) : List String := Name.path (t.node i).tag.name

namespace WellFormed
variable {t : Tree} (h : t.WellFormed)
include h

theorem empties (stack : List Nat) : ∃ met, Empties t stack met := by
  -- The induction is on the number of positions that are not before the node.
  have hone : ∀ m i, t.nodes.size - i = m → ∃ met, Empties t [i] met := by
    intro m
    induction m using Nat.strongRecOn with
    | ind m ih =>
        intro i hm
        have hchildren : ∀ c ∈ (t.node i).children, ∃ met, Empties t [c] met := by
          intro c hc
          have hparent := h.child i c hc
          have hlater := (h.of_parent hparent.2).1
          exact ih (t.nodes.size - c) (by omega) c rfl
        obtain ⟨met, hmet⟩ := Empties.of_singletons hchildren
        exact ⟨i :: met, .step (by rwa [List.append_nil])⟩
  exact Empties.of_singletons fun i _ => hone _ i rfl

theorem pathAt_root : t.pathAt 0 = [] := by
  rw [pathAt, h.root_tag, Tag.invalid, Name.path_root]

theorem pathAt_child {p c : Nat} (hc : c ∈ (t.node p).children) :
    t.pathAt c = t.pathAt p ++ [(t.node c).segment] := h.path_of_parent (h.child p c hc).2

theorem pathAt_of_position {name : String} {i : Nat} (hi : t.position? name = some i) :
    i < t.nodes.size ∧ t.pathAt i = Name.segments name := by
  obtain ⟨hpos, hlt, rfl⟩ := (h.names name i).mp hi
  exact ⟨hlt, Name.path_of_ne (h.name_ne_empty hpos hlt)⟩

theorem prefix_child {p c : Nat} (hc : c ∈ (t.node p).children) : t.pathAt p <+: t.pathAt c := by
  rw [h.pathAt_child hc]
  exact List.prefix_append ..

theorem inner_child {p c : Nat} (hc : c ∈ (t.node p).children) : t.Inner c :=
  ⟨h.pos_of_parent (h.child p c hc).2, (h.child p c hc).1⟩

theorem inner_step {i : Nat} {stack : List Nat} (hstack : ∀ k ∈ i :: stack, t.Inner k) :
    ∀ k ∈ (t.node i).children ++ stack, t.Inner k := by
  intro k hk
  rcases List.mem_append.mp hk with hk | hk
  · exact h.inner_child hk
  · exact hstack k (List.mem_cons_of_mem i hk)

/-- What a position leads to is the position itself or what a child of it leads to. -/
theorem prefix_iff {i j : Nat} (hi : i < t.nodes.size) (hj : j < t.nodes.size) :
    t.pathAt i <+: t.pathAt j ↔ j = i ∨ ∃ c ∈ (t.node i).children, t.pathAt c <+: t.pathAt j := by
  constructor
  · intro hprefix
    induction j using Nat.strongRecOn with
    | ind j ih =>
        rcases Nat.eq_zero_or_pos j with rfl | hpos
        · rw [h.pathAt_root, List.prefix_nil, ← h.pathAt_root] at hprefix
          exact .inl (h.eq_of_name_eq hj hi (Name.path_inj.mp hprefix.symm))
        · obtain ⟨p, hpj, _, hmem⟩ := h.parent j hpos hj
          rw [h.pathAt_child hmem, List.prefix_concat_iff, ← h.pathAt_child hmem] at hprefix
          rcases hprefix with he | hprefix
          · exact .inl (h.eq_of_name_eq hj hi (Name.path_inj.mp he.symm))
          · rcases ih p hpj (Nat.lt_trans hpj hj) hprefix with rfl | ⟨c, hc, hcp⟩
            · exact .inr ⟨j, hmem, List.prefix_refl _⟩
            · exact .inr ⟨c, hc, hcp.trans (h.prefix_child hmem)⟩
  · rintro (rfl | ⟨c, hc, hprefix⟩)
    · exact List.prefix_refl _
    · exact (h.prefix_child hc).trans hprefix

/-- Walks meet the nodes but the root that the stack leads to. -/
theorem mem_met {stack met : List Nat} (hwalk : Empties t stack met)
    (hstack : ∀ i ∈ stack, t.Inner i) {j : Nat} :
    j ∈ met ↔ t.Inner j ∧ ∃ i ∈ stack, t.pathAt i <+: t.pathAt j := by
  induction hwalk with
  | done => simp
  | step _ ih =>
      rename_i i stack met _
      have hi := hstack i List.mem_cons_self
      rw [List.mem_cons, ih (h.inner_step hstack)]
      constructor
      · rintro (rfl | ⟨hj, k, hk, hprefix⟩)
        · exact ⟨hi, j, List.mem_cons_self, List.prefix_refl _⟩
        · rcases List.mem_append.mp hk with hk | hk
          · exact ⟨hj, i, List.mem_cons_self, (h.prefix_iff hi.2 hj.2).mpr (.inr ⟨k, hk, hprefix⟩)⟩
          · exact ⟨hj, k, List.mem_cons_of_mem i hk, hprefix⟩
      · rintro ⟨hj, k, hk, hprefix⟩
        rcases List.mem_cons.mp hk with rfl | hk
        · rcases (h.prefix_iff hi.2 hj.2).mp hprefix with rfl | ⟨c, hc, hprefix⟩
          · exact .inl rfl
          · exact .inr ⟨hj, c, List.mem_append_left _ hc, hprefix⟩
        · exact .inr ⟨hj, k, List.mem_append_right _ hk, hprefix⟩

theorem children_apart (p : Nat) :
    (t.node p).children.Pairwise fun c d => Name.Apart (t.pathAt c) (t.pathAt d) := by
  have hsorted := h.sorted p
  rw [childSegments, List.pairwise_map] at hsorted
  refine hsorted.imp_of_mem ?_
  intro c d hc hd hlt
  rw [h.pathAt_child hc, h.pathAt_child hd]
  exact ⟨t.pathAt p, _, _, hlt, List.prefix_refl _, List.prefix_refl _⟩

theorem met_sorted {stack met : List Nat} (hwalk : Empties t stack met)
    (hstack : ∀ i ∈ stack, t.Inner i)
    (hapart : stack.Pairwise fun i j => Name.Apart (t.pathAt i) (t.pathAt j)) :
    met.Pairwise fun i j => t.pathAt i < t.pathAt j := by
  induction hwalk with
  | done => exact .nil
  | step hwalk ih =>
      rename_i i stack met
      obtain ⟨hfirst, hlater⟩ := List.pairwise_cons.mp hapart
      have hinner := h.inner_step hstack
      refine List.pairwise_cons.mpr ⟨?_, ih hinner (List.pairwise_append.mpr
        ⟨h.children_apart i, hlater, ?_⟩)⟩
      · -- What comes later is below the node or apart from it.
        intro j hj
        obtain ⟨_, k, hk, hprefix⟩ := (h.mem_met hwalk hinner).mp hj
        rcases List.mem_append.mp hk with hk | hk
        · rw [h.pathAt_child hk] at hprefix
          exact Name.lt_of_concat_prefix hprefix
        · exact ((hfirst k hk).extend (List.prefix_refl _) hprefix).lt
      · intro c hc k hk
        exact (hfirst k hk).extend (h.prefix_child hc) (List.prefix_refl _)

end WellFormed

instance : Std.Irrefl fun m n : Node => Name.path m.tag.name < Name.path n.tag.name :=
  ⟨fun _ => List.lt_irrefl _⟩

instance : Std.Antisymm fun m n : Node => Name.path m.tag.name < Name.path n.tag.name :=
  ⟨fun _ _ hmn hnm => absurd hnm (List.lt_asymm hmn)⟩

def order (t : Tree) (start : Nat) : List Nat := t.unwind t.nodes.size (t.node start).children

namespace WellFormed
variable {t : Tree} (h : t.WellFormed)
include h

theorem order_empties (start : Nat) : Empties t (t.node start).children (t.order start) := by
  obtain ⟨met, hmet⟩ := h.empties (t.node start).children
  have hinner : ∀ c ∈ (t.node start).children, t.Inner c := fun c => h.inner_child
  have hsorted := h.met_sorted hmet hinner (h.children_apart start)
  have hnodup : met.Nodup := by
    refine hsorted.imp ?_
    rintro i _ hlt rfl
    exact List.lt_irrefl _ hlt
  have hrange : met ⊆ List.range t.nodes.size := fun j hj =>
    List.mem_range.mpr ((h.mem_met hmet hinner).mp hj).1.2
  have hlength := hnodup.length_le_of_subset hrange
  rw [List.length_range] at hlength
  rw [order, hmet.unwind_eq hlength]
  exact hmet

theorem order_sorted (start : Nat) :
    (t.order start).Pairwise fun i j => t.pathAt i < t.pathAt j :=
  h.met_sorted (h.order_empties start) (fun _ => h.inner_child) (h.children_apart start)

theorem mem_order {start : Nat} (hstart : start < t.nodes.size) {j : Nat} :
    j ∈ t.order start ↔ t.Inner j ∧ j ≠ start ∧ t.pathAt start <+: t.pathAt j := by
  rw [h.mem_met (h.order_empties start) fun _ => h.inner_child]
  constructor
  · rintro ⟨hj, c, hc, hprefix⟩
    refine ⟨hj, ?_, (h.prefix_iff hstart hj.2).mpr (.inr ⟨c, hc, hprefix⟩)⟩
    rintro rfl
    rw [h.pathAt_child hc] at hprefix
    exact List.lt_irrefl _ (Name.lt_of_concat_prefix hprefix)
  · rintro ⟨hj, hne, hprefix⟩
    exact ⟨hj, ((h.prefix_iff hstart hj.2).mp hprefix).resolve_left hne⟩

theorem below_sorted (start : Nat) : (t.below start).Pairwise fun m n =>
    Name.path m.tag.name < Name.path n.tag.name :=
  List.pairwise_map.mpr (h.order_sorted start)

/-- A node is met when it is the node of its name and that name lies further down. -/
theorem mem_below {start : Nat} (hstart : start < t.nodes.size) {n : Node} :
    n ∈ t.below start ↔ t.node? n.tag.name = some n ∧
      t.pathAt start <+: Name.path n.tag.name ∧ Name.path n.tag.name ≠ t.pathAt start := by
  have hbelow : t.below start = (t.order start).map t.node := rfl
  rw [hbelow, List.mem_map, node?]
  constructor
  · rintro ⟨j, hj, rfl⟩
    obtain ⟨hinner, hne, hprefix⟩ := (h.mem_order hstart).mp hj
    rw [(h.names _ j).mpr ⟨hinner.1, hinner.2, rfl⟩]
    refine ⟨rfl, hprefix, ?_⟩
    intro he
    exact hne (h.eq_of_name_eq hinner.2 hstart (Name.path_inj.mp he))
  · rintro ⟨hn, hprefix, hne⟩
    obtain ⟨j, hj, rfl⟩ := Option.map_eq_some_iff.mp hn
    obtain ⟨hpos, hlt, _⟩ := (h.names _ j).mp hj
    refine ⟨j, (h.mem_order hstart).mpr ⟨⟨hpos, hlt⟩, ?_, hprefix⟩, rfl⟩
    rintro rfl
    exact hne rfl

/-- What lies below a node is a part of what lies below the root. -/
theorem below_eq_filter {start : Nat} (hstart : start < t.nodes.size) : t.below start =
    (t.below 0).filter fun n => t.pathAt start <+: Name.path n.tag.name ∧
      Name.path n.tag.name ≠ t.pathAt start := by
  refine (h.below_sorted start).eq_of_mem_iff ((h.below_sorted 0).filter _) ?_
  intro n
  rw [List.mem_filter, h.mem_below hstart, h.mem_below h.nonempty, h.pathAt_root,
    decide_eq_true_iff]
  constructor
  · rintro ⟨hn, hprefix, hne⟩
    refine ⟨⟨hn, List.nil_prefix, ?_⟩, hprefix, hne⟩
    intro hnil
    rw [hnil, List.prefix_nil] at hprefix
    exact hne (hnil.trans hprefix.symm)
  · rintro ⟨⟨hn, _⟩, hlow⟩
    exact ⟨hn, hlow⟩

theorem nodup_tags_below (start : Nat) (keep : Node → Bool) :
    (((t.below start).filter keep).map (·.tag)).Nodup := by
  refine List.pairwise_map.mpr (((h.below_sorted start).filter keep).imp ?_)
  intro m n hlt he
  rw [he] at hlt
  exact List.lt_irrefl _ hlt

theorem mem_tags_below (keep : Node → Bool) (tag : Tag) :
    tag ∈ ((t.below 0).filter keep).map (·.tag) ↔ ∃ n, t.node? tag.name = some n ∧ keep n := by
  constructor
  · intro hmem
    obtain ⟨n, hn, rfl⟩ := List.mem_map.mp hmem
    obtain ⟨hbelow, hkeep⟩ := List.mem_filter.mp hn
    exact ⟨n, ((h.mem_below h.nonempty).mp hbelow).1, hkeep⟩
  · rintro ⟨n, hn, hkeep⟩
    obtain ⟨i, hi, rfl⟩ := Option.map_eq_some_iff.mp hn
    obtain ⟨hpos, hlt, hname⟩ := (h.names _ i).mp hi
    refine List.mem_map.mpr ⟨t.node i, List.mem_filter.mpr ⟨?_, hkeep⟩, congrArg Tag.mk hname⟩
    rw [h.mem_below h.nonempty, h.pathAt_root, hname]
    refine ⟨hn, List.nil_prefix, ?_⟩
    rw [← hname, ← Name.path_root]
    exact mt Name.path_inj.mp (h.name_ne_empty hpos hlt)

/-- The tags of a walk become a container as they are. -/
theorem ofList_below (start : Nat) (keep : Node → Bool) :
    (Container.ofList (((t.below start).filter keep).map (·.tag))).tags =
      ((t.below start).filter keep).map (·.tag) := by
  have hvalid : ∀ u ∈ ((t.below start).filter keep).map (·.tag), u.isValid := by
    intro u hu
    obtain ⟨n, hn, rfl⟩ := List.mem_map.mp hu
    obtain ⟨j, hj, rfl⟩ := List.mem_map.mp (List.mem_filter.mp hn).1
    have hinner := ((h.mem_met (h.order_empties start) fun _ => h.inner_child).mp hj).1
    exact bne_iff_ne.mpr (h.name_ne_empty hinner.1 hinner.2)
  rw [Container.ofList_of_nodup hvalid (h.nodup_tags_below start keep)]
  rfl

theorem climb_eq {fuel i : Nat} (hi : i < t.nodes.size) (hfuel : i < fuel) (segments : List String) :
    t.climb fuel i segments = t.pathAt i ++ segments := by
  induction fuel generalizing i segments with
  | zero => cases hfuel
  | succ fuel ih =>
      rw [climb]
      rcases Nat.eq_zero_or_pos i with rfl | hpos
      · rw [h.root_parent, h.pathAt_root]
        rfl
      · obtain ⟨p, hpi, hp, hmem⟩ := h.parent i hpos hi
        rw [hp]
        dsimp only
        rw [ih (Nat.lt_trans hpi hi) (by omega), h.pathAt_child hmem, List.append_assoc]
        rfl

end WellFormed
end TagTree.Tree
