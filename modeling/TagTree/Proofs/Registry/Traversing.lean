import TagTree.Proofs.Name.Lineage
import TagTree.Proofs.Registry.Peers
import TagTree.Proofs.Registry.Precedence

/-!
# Traversals list what they should

A walk over a registry gives the registered tags in the order of their segments.
Below a tag it gives the part of them whose segments go on from those of the
tag, and tags with a source, or with a certain one, are left in the same order
when the others are dropped.

The walk of a tree lists the nodes below a position in the order of their paths
and ends by itself. On a registry this becomes a statement about names: all tags
stand in the order of segments, and those below a tag are a part of that list.
Dropping tags by a property of their entry keeps the order, so the dictionary
and the tags of a source are parts of the list as well.

The containers that a registry answers with are made of such lists. Nothing in
them is invalid or comes twice, so they have the tags of the list as they are. A
tag that the registry does not know has nothing below it and is not split into
segments.
-/
namespace TagTree.Registry

def Heads (t u : Tag) : Prop :=
  Name.segments t.name <+: Name.segments u.name ∧ Name.segments u.name ≠ Name.segments t.name

instance (t u : Tag) : Decidable (Heads t u) :=
  inferInstanceAs (Decidable (Name.segments t.name <+: Name.segments u.name ∧
    Name.segments u.name ≠ Name.segments t.name))

/-- What the traversals of a registry list, and in which order. -/
structure Traversals (r : Registry) : Prop where
  registered : ∀ t, t ∈ r.tags ↔ r.contains t.name
  once : r.tags.Nodup
  sorted : r.tags.Pairwise fun t u => Name.Before t.name u.name
  /-- The descendants of a tag, in the order of all tags. -/
  children : ∀ t, (r.children t).tags = r.tags.filter (Heads t ·)
  childless : ∀ t, ¬ r.contains t.name → (r.children t).tags = []
  namedChildren : ∀ t, (r.namedChildren t).tags = (r.children t).tags.filter r.isNamed
  allTags : (r.allTags false).tags = r.tags ∧ (r.allTags true).tags = r.tags.filter r.isNamed
  fromSource : ∀ source, (r.tagsFromSource source).tags =
    r.tags.filter fun t => (r.entry? t).bind (·.source) == some source
  segments : ∀ t, r.segments t = if r.contains t.name then Name.segments t.name else []
  /-- The loop over the stack ends by itself, and the nodes are those it met. -/
  ends : ∀ start, ∃ met, r.tree.Empties (r.tree.node start).children met ∧
    r.tree.below start = met.map r.tree.node

theorem map_tag_filter {ns : List Node} {test : Node → Bool} {keep : Tag → Bool}
    (h : ∀ n ∈ ns, test n = keep n.tag) :
    (ns.filter test).map (·.tag) = (ns.map (·.tag)).filter keep := by
  rw [List.filter_congr h, List.filter_map]
  rfl

namespace Consistent
variable {r : Registry} (h : r.Consistent)
include h

theorem node?_of_mem_nodes {n : Node} (hn : n ∈ r.nodes) : r.tree.node? n.tag.name = some n :=
  ((h.tree.mem_below h.tree.nonempty).mp hn).1

theorem path_of_mem_nodes {n : Node} (hn : n ∈ r.nodes) :
    Name.path n.tag.name = Name.segments n.tag.name := by
  obtain ⟨i, hi, rfl⟩ := Option.map_eq_some_iff.mp (h.node?_of_mem_nodes hn)
  exact (h.tree.pathAt_of_position hi).2

theorem entry?_of_mem_nodes {n : Node} (hn : n ∈ r.nodes) : r.entry? n.tag = some n.entry := by
  unfold entry?
  rw [h.node?_of_mem_nodes hn]
  rfl

theorem isNamed_of_mem_nodes {n : Node} (hn : n ∈ r.nodes) :
    n.entry.source.isSome = r.isNamed n.tag := by
  rw [isNamed, h.entry?_of_mem_nodes hn]
  rfl

theorem mem_tags_iff {t : Tag} : t ∈ r.tags ↔ r.contains t.name := by
  have hall := h.tree.mem_tags_below (fun _ => true) t
  rw [List.filter_true] at hall
  rw [tags, nodes, hall, contains, Tree.node?]
  cases r.tree.position? t.name <;> simp

theorem contains_of_prefix {m name : String} (hc : r.contains name)
    (hm : Name.segments m <+: Name.segments name) : r.contains m := by
  obtain ⟨rest, hrest⟩ := hm
  rw [contains, h.tree.position?_eq_walk, ← hrest, Tree.walk_append] at hc
  rw [contains, h.tree.position?_eq_walk]
  cases hw : r.tree.walk 0 (Name.segments m) with
  | none =>
      rw [hw] at hc
      cases hc
  | some i => rfl

theorem nodesBelow_eq (t : Tag) :
    r.nodesBelow t = r.nodes.filter fun n => decide (Heads t n.tag) := by
  unfold nodesBelow nodes
  cases hp : r.tree.position? t.name with
  | some i =>
      obtain ⟨hlt, hpath⟩ := h.tree.pathAt_of_position hp
      dsimp only
      rw [h.tree.below_eq_filter hlt, hpath]
      refine List.filter_congr fun n hn => ?_
      rw [h.path_of_mem_nodes hn]
      rfl
  | none =>
      refine (List.filter_eq_nil_iff.mpr ?_).symm
      intro n hn hheads
      have hc : r.contains n.tag.name := h.mem_tags_iff.mp (List.mem_map_of_mem hn)
      have hstem := h.contains_of_prefix hc (of_decide_eq_true hheads).1
      rw [contains, hp] at hstem
      cases hstem

theorem mem_nodes_of_below {t : Tag} {n : Node} (hn : n ∈ r.nodesBelow t) : n ∈ r.nodes := by
  rw [h.nodesBelow_eq] at hn
  exact (List.mem_filter.mp hn).1

theorem tags_ofList_nodesBelow (t : Tag) (keep : Node → Bool) :
    (Container.ofList (((r.nodesBelow t).filter keep).map (·.tag))).tags =
      ((r.nodesBelow t).filter keep).map (·.tag) := by
  unfold nodesBelow
  split
  · exact h.tree.ofList_below _ keep
  · rfl

theorem children_tags (t : Tag) : (r.children t).tags = (r.nodesBelow t).map (·.tag) := by
  have hall := h.tags_ofList_nodesBelow t fun _ => true
  rwa [List.filter_true] at hall

theorem segments_eq (t : Tag) :
    r.segments t = if r.contains t.name then Name.segments t.name else [] := by
  unfold segments contains
  cases hp : r.tree.position? t.name with
  | none => rfl
  | some i =>
      obtain ⟨hlt, hpath⟩ := h.tree.pathAt_of_position hp
      dsimp only
      rw [h.tree.climb_eq hlt hlt, List.append_nil, hpath]
      rfl

end Consistent

/-- In every registry that a run leads to, the traversals list the right tags in the right order. -/
theorem traversals_ordered (h : History) : Traversals h.registry := by
  have hc : h.registry.Consistent := h.reachable.consistent
  constructor
  case registered =>
      intro t
      exact hc.mem_tags_iff
  case once =>
      have hall := hc.tree.nodup_tags_below 0 fun _ => true
      rwa [List.filter_true] at hall
  case sorted =>
      refine List.pairwise_map.mpr ((hc.tree.below_sorted 0).imp_of_mem ?_)
      intro m n hm hn hlt
      rw [hc.path_of_mem_nodes hm, hc.path_of_mem_nodes hn] at hlt
      exact Name.before_iff.mpr hlt
  case children =>
      intro t
      rw [hc.children_tags, hc.nodesBelow_eq]
      exact map_tag_filter fun _ _ => rfl
  case childless =>
      intro t ht
      have hnone : h.registry.tree.position? t.name = none := by simpa [contains] using ht
      rw [hc.children_tags, nodesBelow, hnone]
      rfl
  case namedChildren =>
      intro t
      rw [namedChildren, hc.tags_ofList_nodesBelow, hc.children_tags]
      exact map_tag_filter fun n hn => hc.isNamed_of_mem_nodes (hc.mem_nodes_of_below hn)
  case allTags =>
      have hkept : ∀ onlyNamed, (h.registry.allTags onlyNamed).tags =
          (h.registry.nodes.filter fun n => !onlyNamed || n.entry.source.isSome).map (·.tag) :=
        fun _ => hc.tree.ofList_below 0 _
      rw [hkept, hkept]
      refine ⟨congrArg (List.map Node.tag) (List.filter_true _), ?_⟩
      exact map_tag_filter fun n hn => hc.isNamed_of_mem_nodes hn
  case fromSource =>
      intro source
      rw [tagsFromSource, nodes, hc.tree.ofList_below]
      refine map_tag_filter fun n hn => ?_
      rw [hc.entry?_of_mem_nodes hn]
      rfl
  case segments => exact hc.segments_eq
  case ends =>
      intro start
      exact ⟨_, hc.tree.order_empties start, rfl⟩

/-- A tag of another registry is not split. -/
theorem segments_of_foreign :
    let h : History := ⟨.empty {}, [.addNative ⟨"C", ""⟩]⟩
    let other : History := ⟨.empty {}, [.addNative ⟨"A.B", ""⟩]⟩
    other.registry.contains "A.B" ∧ ¬ h.registry.contains "A.B" ∧
      h.registry.segments ⟨"A.B"⟩ ≠ Name.segments "A.B" := by
  decide +kernel

/-- A hyphen stands before the dot, but a tag stays with its descendants. -/
example : ((empty {}).run [.addNatives [⟨"A.B", ""⟩, ⟨"A-", ""⟩, ⟨"A", ""⟩]]).tags =
    [⟨"A"⟩, ⟨"A.B"⟩, ⟨"A-"⟩] := by
  decide +kernel

end TagTree.Registry
