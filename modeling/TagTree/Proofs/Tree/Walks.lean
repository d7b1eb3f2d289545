import Mathlib.Data.List.Sort
import TagTree.Proofs.Tree.Shape

/-!
# Walks through trees of the same names

The children of a node are told by the registered names and stand in the order
of their segments. So two trees of the same names are walked in step, from nodes
of one name, however their nodes are placed.

The relation is on stacks: as lists of tags they are the same, though the
positions are those of two different trees. A step takes nodes of one tag from
both, and the children of these have the same segments in the same order,
because a child is there exactly if a registered name goes on with its segment.
So the stacks stay the same as lists of tags, and so does what is met.

Nothing is asked of the order in which the names were registered, which is why
registries that were filled in different orders list their tags in the same
order.
-/
namespace TagTree.Tree

def tagAt (t : Tree) (i : Nat) : Tag := (t.node i).tag

/-- Well-formed trees of the same names. -/
structure SameNames (t u : Tree) : Prop where
  left : t.WellFormed
  right : u.WellFormed
  names : ∀ m, (u.position? m).isSome ↔ (t.position? m).isSome

namespace WellFormed
variable {t : Tree} (h : t.WellFormed)
include h

/-- A child is there for every plain segment that leads on to a registered name. -/
theorem mem_childSegments {p : Nat} (hp : p < t.nodes.size) {s : String} :
    s ∈ t.childSegments p ↔
      Name.Plain s ∧ (t.position? (Name.child (t.tagAt p).name s)).isSome := by
  rw [childSegments, List.mem_map]
  constructor
  · rintro ⟨c, hc, rfl⟩
    obtain ⟨hlt, hparent⟩ := h.child p c hc
    obtain ⟨hplain, hname⟩ := h.name c p hparent
    have hposition := (h.names _ c).mpr ⟨h.pos_of_parent hparent, hlt, hname⟩
    exact ⟨hplain, Option.isSome_iff_exists.mpr ⟨c, hposition⟩⟩
  · rintro ⟨hplain, hsome⟩
    obtain ⟨c, hc⟩ := Option.isSome_iff_exists.mp hsome
    obtain ⟨hpos, hlt, hname⟩ := (h.names _ c).mp hc
    obtain ⟨q, hqc, hparent, hmem⟩ := h.parent c hpos hlt
    obtain ⟨hplain', hname'⟩ := h.name c q hparent
    obtain ⟨hstem, hseg⟩ := (Name.child_inj hplain' hplain).mp (hname'.symm.trans hname)
    have hqp : q = p := h.eq_of_name_eq (Nat.lt_trans hqc hlt) hp hstem
    exact ⟨c, hqp ▸ hmem, hseg⟩

theorem map_tagAt_children (p : Nat) : (t.node p).children.map t.tagAt =
    (t.childSegments p).map fun s => ⟨Name.child (t.tagAt p).name s⟩ := by
  rw [childSegments, List.map_map]
  refine List.map_congr_left ?_
  intro c hc
  exact congrArg Tag.mk (h.name c p (h.child p c hc).2).2

end WellFormed

namespace SameNames
variable {t u : Tree} (h : SameNames t u)
include h

theorem size : u.nodes.size = t.nodes.size := by
  have hperm : u.tags.Perm t.tags := by
    refine (List.perm_ext_iff_of_nodup h.right.tags_nodup.of_map h.left.tags_nodup.of_map).mpr ?_
    intro tag
    rw [h.right.mem_tags, h.left.mem_tags, h.names]
  have hlength := hperm.length_eq
  have hleft : t.size = t.nodes.size - 1 := rfl
  have hright : u.size = u.nodes.size - 1 := rfl
  have hroot := h.left.nonempty
  have hroot' := h.right.nonempty
  rw [length_tags, length_tags] at hlength
  omega

theorem childSegments {p q : Nat} (hp : p < t.nodes.size) (hq : q < u.nodes.size)
    (he : u.tagAt q = t.tagAt p) : u.childSegments q = t.childSegments p := by
  refine (h.right.sorted q).eq_of_mem_iff (h.left.sorted p) ?_
  intro s
  rw [h.right.mem_childSegments hq, h.left.mem_childSegments hp, he, h.names]

theorem children {p q : Nat} (hp : p < t.nodes.size) (hq : q < u.nodes.size)
    (he : u.tagAt q = t.tagAt p) :
    (u.node q).children.map u.tagAt = (t.node p).children.map t.tagAt := by
  rw [h.right.map_tagAt_children, h.left.map_tagAt_children, h.childSegments hp hq he, he]

/-- Stacks of the same tags lead to the same tags. -/
theorem unwind (fuel : Nat) {stack stack' : List Nat} (hstack : ∀ i ∈ stack, i < t.nodes.size)
    (hstack' : ∀ i ∈ stack', i < u.nodes.size) (he : stack'.map u.tagAt = stack.map t.tagAt) :
    (u.unwind fuel stack').map u.tagAt = (t.unwind fuel stack).map t.tagAt := by
  induction fuel generalizing stack stack' with
  | zero => rfl
  | succ fuel ih =>
      cases stack with
      | nil =>
          rw [List.map_eq_nil_iff.mp he]
          rfl
      | cons p stack =>
          obtain ⟨q, rest, rfl, hhead, hrest⟩ := List.map_eq_cons_iff.mp he
          have hp := hstack p List.mem_cons_self
          have hq := hstack' q List.mem_cons_self
          have hlater : ∀ i ∈ (t.node p).children ++ stack, i < t.nodes.size := by
            intro i hi
            rcases List.mem_append.mp hi with hi | hi
            · exact (h.left.child p i hi).1
            · exact hstack i (List.mem_cons_of_mem p hi)
          have hlater' : ∀ i ∈ (u.node q).children ++ rest, i < u.nodes.size := by
            intro i hi
            rcases List.mem_append.mp hi with hi | hi
            · exact (h.right.child q i hi).1
            · exact hstack' i (List.mem_cons_of_mem q hi)
          rw [Tree.unwind, Tree.unwind, List.map_cons, List.map_cons, hhead, ih hlater hlater']
          rw [List.map_append, List.map_append, h.children hp hq hhead, hrest]

/-- From nodes of one name, trees of the same names are walked in the same order. -/
theorem below {p q : Nat} (hp : p < t.nodes.size) (hq : q < u.nodes.size)
    (he : u.tagAt q = t.tagAt p) :
    (u.below q).map (·.tag) = (t.below p).map (·.tag) := by
  rw [Tree.below, Tree.below, List.map_map, List.map_map, h.size]
  exact h.unwind _ (fun i hi => (h.left.child p i hi).1) (fun i hi => (h.right.child q i hi).1)
    (h.children hp hq he)

end SameNames
end TagTree.Tree
