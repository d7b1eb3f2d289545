import TagTree.Proofs.Name.Segments
import TagTree.Proofs.Tree.Search

/-!
# The shape of a tree

What ties the array, the child lists, the map of names and the full names
together. Changes of what is known of a node or of its index keep all of it, and
a tree of this shape can be walked segment by segment with the same answers as
the map gives.

`WellFormed` has one field for each tie, and most later proofs use two or three
of them. A node stands behind its parent, so properties of a node follow by
induction on its position from those of its parent: full names are proper, and
only the root has the empty one. The map of names is exactly the inverse of
reading off full names, so a node is told by its name.

Changing entries and indices is covered by `SameShape`, which says that two
trees agree in everything the shape is about; well-formedness goes along with
it. Walking segment by segment and asking the map are then two ways to the same
node, for every text, registered or not.
-/
namespace TagTree.Tree

structure WellFormed (t : Tree) : Prop where
  nonempty : 0 < t.nodes.size
  root_tag : (t.node 0).tag = .invalid
  root_parent : (t.node 0).parent = none
  /-- A node stands behind its parent, which lists it. -/
  parent : ∀ i, 0 < i → i < t.nodes.size →
    ∃ p < i, (t.node i).parent = some p ∧ i ∈ (t.node p).children
  /-- A node that is listed has the lister as its parent. -/
  child : ∀ p c, c ∈ (t.node p).children → c < t.nodes.size ∧ (t.node c).parent = some p
  sorted : ∀ p, (t.childSegments p).Pairwise (· < ·)
  /-- A full name is the parent's full name with the segment below it. -/
  name : ∀ i p, (t.node i).parent = some p → Name.Plain (t.node i).segment ∧
    (t.node i).tag.name = Name.child (t.node p).tag.name (t.node i).segment
  /-- A node has its ancestors from its parent. -/
  above : ∀ i p, (t.node i).parent = some p → (t.node i).above = (t.node p).lineage
  /-- The map leads from each full name to its node. -/
  names : ∀ name i, t.position? name = some i ↔
    0 < i ∧ i < t.nodes.size ∧ (t.node i).tag.name = name

theorem node_of_le {t : Tree} {i : Nat} (h : t.nodes.size ≤ i) : t.node i = .root := by
  simp [node, Array.getD_eq_getD_getElem?, Array.getElem?_eq_none h]

theorem empty_wellFormed : WellFormed empty := by
  have hnode : ∀ i, empty.node i = .root := by
    intro i
    cases i with
    | zero => rfl
    | succ i => exact node_of_le (by simp [empty])
  constructor
  case nonempty => simp [empty]
  case root_tag => rfl
  case root_parent => rfl
  case parent =>
      intro i hi hlt
      simp only [empty, List.size_toArray, List.length_singleton] at hlt
      omega
  case child =>
      intro p c hc
      simp [hnode, Node.root] at hc
  case sorted =>
      intro p
      simp [childSegments, hnode, Node.root]
  case name =>
      intro i p hp
      simp [hnode, Node.root] at hp
  case above =>
      intro i p hp
      simp [hnode, Node.root] at hp
  case names =>
      intro name i
      simp only [position?, empty, List.lookup_nil, List.size_toArray, List.length_singleton]
      constructor
      · intro h
        cases h
      · intro h
        omega

theorem tags_eq (t : Tree) : t.tags = (List.range t.size).map fun k => (t.node (k + 1)).tag := by
  apply List.ext_getElem
  · simp [tags, size]
  · intro k hk _
    have hlt : k + 1 < t.nodes.size := by
      rw [tags, List.length_map, List.length_drop, Array.length_toList] at hk
      omega
    simp [tags, node, Array.getD_eq_getD_getElem?, hlt]

theorem length_tags (t : Tree) : t.tags.length = t.size := by
  rw [tags_eq, List.length_map, List.length_range]

namespace WellFormed
variable {t : Tree} (h : t.WellFormed)
include h

theorem pos_of_parent {i p : Nat} (hp : (t.node i).parent = some p) : 0 < i := by
  rcases Nat.eq_zero_or_pos i with rfl | hi
  · rw [h.root_parent] at hp
    cases hp
  · exact hi

theorem of_parent {i p : Nat} (hp : (t.node i).parent = some p) :
    p < i ∧ i < t.nodes.size ∧ i ∈ (t.node p).children := by
  have hi : i < t.nodes.size := by
    by_contra hle
    rw [node_of_le (Nat.le_of_not_lt hle)] at hp
    cases hp
  obtain ⟨q, hq, hpq, hmem⟩ := h.parent i (h.pos_of_parent hp) hi
  rw [hp] at hpq
  cases hpq
  exact ⟨hq, hi, hmem⟩

theorem path_of_parent {i p : Nat} (hp : (t.node i).parent = some p) :
    Name.path (t.node i).tag.name = Name.path (t.node p).tag.name ++ [(t.node i).segment] := by
  obtain ⟨hplain, hname⟩ := h.name i p hp
  rw [hname, Name.path_child _ hplain]

theorem name_ne_empty {i : Nat} (hi : 0 < i) (hlt : i < t.nodes.size) :
    (t.node i).tag.name ≠ "" := by
  obtain ⟨p, _, hp, _⟩ := h.parent i hi hlt
  obtain ⟨hplain, hname⟩ := h.name i p hp
  rw [hname]
  exact Name.child_ne_empty _ hplain.1

/-- Only the root has the empty name. -/
theorem name_eq_empty_iff {i : Nat} (hlt : i < t.nodes.size) :
    (t.node i).tag.name = "" ↔ i = 0 := by
  constructor
  · intro he
    rcases Nat.eq_zero_or_pos i with hi | hi
    · exact hi
    · exact absurd he (h.name_ne_empty hi hlt)
  · rintro rfl
    rw [h.root_tag]
    rfl

theorem eq_of_name_eq {i j : Nat} (hi : i < t.nodes.size) (hj : j < t.nodes.size)
    (he : (t.node i).tag.name = (t.node j).tag.name) : i = j := by
  rcases Nat.eq_zero_or_pos i with hi0 | hi0
  · have hn := (h.name_eq_empty_iff hi).mpr hi0
    rw [hi0, (h.name_eq_empty_iff hj).mp (he ▸ hn)]
  · have hj0 : 0 < j := by
      rcases Nat.eq_zero_or_pos j with hj0 | hj0
      · exact absurd (he.trans ((h.name_eq_empty_iff hj).mpr hj0)) (h.name_ne_empty hi0 hi)
      · exact hj0
    have h₁ := (h.names (t.node j).tag.name i).mpr ⟨hi0, hi, he⟩
    have h₂ := (h.names (t.node j).tag.name j).mpr ⟨hj0, hj, rfl⟩
    exact Option.some.inj (h₁.symm.trans h₂)

theorem children_nodup (p : Nat) : (t.node p).children.Nodup := by
  have hs := h.sorted p
  rw [childSegments, List.pairwise_map] at hs
  refine hs.imp ?_
  rintro c _ hlt rfl
  exact String.lt_irrefl _ hlt

theorem tags_nodup : (t.tags.map (·.name)).Nodup := by
  rw [tags_eq, List.map_map, List.Nodup, List.pairwise_map]
  refine List.Pairwise.imp_of_mem ?_ List.pairwise_lt_range
  intro i j hi hj hij he
  have hsize : t.size = t.nodes.size - 1 := rfl
  have hi' := List.mem_range.mp hi
  have hj' := List.mem_range.mp hj
  have hsame := h.eq_of_name_eq (i := i + 1) (j := j + 1) (by omega) (by omega) he
  omega

theorem mem_tags {tag : Tag} : tag ∈ t.tags ↔ (t.position? tag.name).isSome := by
  have hsize : t.size = t.nodes.size - 1 := rfl
  rw [tags_eq, List.mem_map]
  constructor
  · rintro ⟨k, hk, rfl⟩
    have hlt := List.mem_range.mp hk
    rw [(h.names _ (k + 1)).mpr ⟨by omega, by omega, rfl⟩]
    rfl
  · intro hp
    obtain ⟨i, hi⟩ := Option.isSome_iff_exists.mp hp
    obtain ⟨hpos, hlt, hname⟩ := (h.names _ i).mp hi
    refine ⟨i - 1, List.mem_range.mpr (by omega), ?_⟩
    rw [Nat.sub_add_cancel hpos]
    exact congrArg Tag.mk hname

theorem count_children {i p : Nat} (hp : (t.node i).parent = some p) (q : Nat) :
    (t.node q).children.count i = if q = p then 1 else 0 := by
  split
  · rename_i hq
    rw [hq]
    exact List.count_eq_one_of_mem (h.children_nodup p) (h.of_parent hp).2.2
  · rename_i hq
    refine List.count_eq_zero.mpr ?_
    intro hmem
    have hpar := (h.child q i hmem).2
    rw [hp] at hpar
    exact hq (Option.some.inj hpar).symm

theorem name_of_parent {i p : Nat} (hp : (t.node i).parent = some p) :
    (t.node i).tag.name = if p = 0 then (t.node i).segment
      else (t.node p).tag.name ++ "." ++ (t.node i).segment := by
  obtain ⟨hpi, hi, _⟩ := h.of_parent hp
  have hroot := h.name_eq_empty_iff (Nat.lt_trans hpi hi)
  rw [(h.name i p hp).2]
  split
  · rename_i hp0
    rw [hroot.mpr hp0, Name.child_root]
  · rename_i hp0
    rw [Name.child_of_ne (mt hroot.mp hp0)]

end WellFormed

/-- Trees that differ in entries and indices only. -/
structure SameShape (t u : Tree) : Prop where
  size : u.nodes.size = t.nodes.size
  names : u.names = t.names
  node : ∀ i, u.node i = { t.node i with entry := (u.node i).entry, index := (u.node i).index }

namespace SameShape
variable {t u v : Tree}

theorem refl (t : Tree) : SameShape t t := ⟨rfl, rfl, fun _ => rfl⟩

theorem trans (h : SameShape t u) (k : SameShape u v) : SameShape t v := by
  refine ⟨k.size.trans h.size, k.names.trans h.names, fun i => ?_⟩
  rw [k.node i, h.node i]

theorem segment (h : SameShape t u) (i : Nat) : (u.node i).segment = (t.node i).segment := by
  rw [h.node i]

theorem tag (h : SameShape t u) (i : Nat) : (u.node i).tag = (t.node i).tag := by
  rw [h.node i]

theorem parent (h : SameShape t u) (i : Nat) : (u.node i).parent = (t.node i).parent := by
  rw [h.node i]

theorem children (h : SameShape t u) (i : Nat) : (u.node i).children = (t.node i).children := by
  rw [h.node i]

theorem above (h : SameShape t u) (i : Nat) : (u.node i).above = (t.node i).above := by
  rw [h.node i]

theorem lineage (h : SameShape t u) (i : Nat) : (u.node i).lineage = (t.node i).lineage := by
  rw [h.node i]
  rfl

theorem childSegments (h : SameShape t u) (p : Nat) : u.childSegments p = t.childSegments p := by
  simp only [Tree.childSegments, h.children, h.segment]

theorem position? (h : SameShape t u) (name : String) : u.position? name = t.position? name := by
  rw [Tree.position?, Tree.position?, h.names]

theorem wellFormed (h : SameShape t u) (ht : t.WellFormed) : u.WellFormed := by
  constructor
  case nonempty => exact h.size ▸ ht.nonempty
  case root_tag => rw [h.tag, ht.root_tag]
  case root_parent => rw [h.parent, ht.root_parent]
  case parent => simpa only [h.size, h.parent, h.children] using ht.parent
  case child => simpa only [h.size, h.parent, h.children] using ht.child
  case sorted => simpa only [h.childSegments] using ht.sorted
  case name => simpa only [h.segment, h.tag, h.parent] using ht.name
  case above => simpa only [h.above, h.parent, h.lineage] using ht.above
  case names => simpa only [h.size, h.tag, h.position?] using ht.names

end SameShape

/-- A change of one node, seen from any position. -/
theorem node_modify (t : Tree) (names : List (String × Nat)) (i j : Nat) (f : Node → Node) :
    (Tree.mk (t.nodes.modify i f) names).node j =
      if i = j ∧ j < t.nodes.size then f (t.node j) else t.node j := by
  simp only [node, Array.getD_eq_getD_getElem?, Array.getElem?_modify]
  by_cases hj : j < t.nodes.size
  · by_cases hi : i = j <;> simp [hi, hj]
  · by_cases hi : i = j <;> simp [hi, hj]

theorem node_change (t : Tree) (i j : Nat) (f : Entry → Entry) : (t.change i f).node j =
    if i = j ∧ j < t.nodes.size then { t.node j with entry := f (t.node j).entry } else t.node j :=
  node_modify t t.names i j _

theorem node_setIndex (t : Tree) (i j : Nat) (index : Option Nat) : (t.setIndex i index).node j =
    if i = j ∧ j < t.nodes.size then { t.node j with index } else t.node j :=
  node_modify t t.names i j _

theorem change_sameShape (t : Tree) (i : Nat) (f : Entry → Entry) : SameShape t (t.change i f) := by
  refine ⟨Array.size_modify .., rfl, fun j => ?_⟩
  rw [node_change]
  split <;> rfl

theorem setIndex_sameShape (t : Tree) (i : Nat) (index : Option Nat) :
    SameShape t (t.setIndex i index) := by
  refine ⟨Array.size_modify .., rfl, fun j => ?_⟩
  rw [node_setIndex]
  split <;> rfl

theorem assign_sameShape (t : Tree) (first : Nat) (tags : List Tag) :
    SameShape t (t.assign first tags) := by
  induction tags generalizing t first with
  | nil => exact .refl t
  | cons tag tags ih =>
      rw [assign]
      split
      · exact (setIndex_sameShape ..).trans (ih ..)
      · exact ih ..

theorem node_withoutIndices (t : Tree) (i : Nat) :
    t.withoutIndices.node i = { t.node i with index := none } := by
  simp only [withoutIndices, node, Array.getD_eq_getD_getElem?, Array.getElem?_map]
  by_cases hi : i < t.nodes.size
  · simp [hi]
  · simp [hi, Node.root]

theorem withoutIndices_sameShape (t : Tree) : SameShape t t.withoutIndices := by
  refine ⟨Array.size_map .., rfl, fun i => ?_⟩
  rw [node_withoutIndices]

theorem reindex_sameShape (t : Tree) (tags : List Tag) : SameShape t (t.reindex tags) :=
  (withoutIndices_sameShape t).trans (assign_sameShape _ 0 tags)

def walk (t : Tree) : Nat → List String → Option Nat
  | i, [] => some i
  | i, s :: rest => (t.findChild i s).toOption.bind fun c => walk t c rest

theorem walk_append (t : Tree) (i : Nat) (p q : List String) :
    t.walk i (p ++ q) = (t.walk i p).bind fun j => t.walk j q := by
  induction p generalizing i with
  | nil => rfl
  | cons s p ih =>
      rw [List.cons_append, walk, walk]
      cases t.findChild i s with
      | ok c => exact ih c
      | error k => rfl

namespace WellFormed
variable {t : Tree} (h : t.WellFormed)
include h

theorem walk_path {i : Nat} (hlt : i < t.nodes.size) :
    t.walk 0 (Name.path (t.node i).tag.name) = some i := by
  induction i using Nat.strongRecOn with
  | ind i ih =>
      rcases Nat.eq_zero_or_pos i with rfl | hi
      · simp [h.root_tag, Tag.invalid, walk]
      · obtain ⟨p, hpi, hp, hmem⟩ := h.parent i hi hlt
        have hfind := (findChild_eq_ok_iff (h.sorted p)).mpr ⟨hmem, rfl⟩
        rw [h.path_of_parent hp, walk_append, ih p hpi (by omega), Option.bind_some, walk, hfind]
        rfl

theorem path_of_walk {path : List String} {i j : Nat} (hi : i < t.nodes.size)
    (hw : t.walk i path = some j) : j < t.nodes.size ∧
      Name.path (t.node j).tag.name = Name.path (t.node i).tag.name ++ path := by
  induction path generalizing i with
  | nil =>
      cases hw
      exact ⟨hi, (List.append_nil _).symm⟩
  | cons s path ih =>
      rw [walk] at hw
      cases hf : t.findChild i s with
      | error k =>
          rw [hf] at hw
          cases hw
      | ok c =>
          rw [hf] at hw
          obtain ⟨hmem, hs⟩ := findChild_ok hf
          obtain ⟨hc, hp⟩ := h.child i c hmem
          obtain ⟨hj, hpath⟩ := ih hc hw
          refine ⟨hj, ?_⟩
          rw [hpath, h.path_of_parent hp, hs, List.append_assoc]
          rfl

/-- The map of names and the walk from the root give the same answer, for every text. -/
theorem position?_eq_walk (name : String) : t.position? name = t.walk 0 (Name.segments name) := by
  cases hw : t.walk 0 (Name.segments name) with
  | some i =>
      obtain ⟨hi, hpath⟩ := h.path_of_walk h.nonempty hw
      rw [h.root_tag, Tag.invalid, Name.path_root, List.nil_append] at hpath
      have hne : (t.node i).tag.name ≠ "" := by
        intro he
        rw [he, Name.path_root] at hpath
        exact Name.segments_ne_nil name hpath.symm
      have hname : (t.node i).tag.name = name := by
        rw [Name.path_of_ne hne] at hpath
        rw [← Name.intercalate_segments name, ← hpath, Name.intercalate_segments]
      have hi0 : 0 < i := by
        rcases Nat.eq_zero_or_pos i with h0 | h0
        · exact absurd ((h.name_eq_empty_iff hi).mpr h0) hne
        · exact h0
      exact (h.names name i).mpr ⟨hi0, hi, hname⟩
  | none =>
      cases hp : t.position? name with
      | none => rfl
      | some i =>
          obtain ⟨hi, hlt, hname⟩ := (h.names name i).mp hp
          have hne := h.name_ne_empty hi hlt
          have hwalk := h.walk_path hlt
          rw [Name.path_of_ne hne, hname, hw] at hwalk
          cases hwalk

end WellFormed
end TagTree.Tree
