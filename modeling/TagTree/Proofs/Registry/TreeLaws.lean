import TagTree.Proofs.Registry.Run

/-!
# The tree after a run

Whatever rows came in, and in whatever order, the registered names are the
dotted prefixes of the accepted ones, the map of names and the tree agree on
them, and every node has its one place in the tree under its parent.

The laws are stated for the tree and the names that were accepted and say
nothing about how the tree is built. A name is registered exactly if it is a
dotted prefix of an accepted one. The map leads from a name to its node, and a
node other than the root is listed by its parent once and by no other node,
among siblings in the order of their segments, and its full name is that of its
parent with its own segment behind a dot.

That is what every other traversal and lookup rests on. The laws follow from
consistency alone, so they hold after every run, whichever rows it was given,
refused ones and late ones included, and after a rebuild like before it.
-/
namespace TagTree.Registry

structure TreeLaws (r : Registry) (accepted : List String) : Prop where
  registered : ∀ m, r.contains m ↔ ∃ n ∈ accepted, Name.DottedPrefix m n
  once : (r.tree.tags.map (·.name)).Nodup
  /-- The map leads from a name to the one node of that name, and to every node but the root. -/
  mapped : ∀ m i, r.tree.position? m = some i ↔
    0 < i ∧ i < r.tree.nodes.size ∧ (r.tree.node i).tag.name = m
  walked : ∀ m, r.tree.position? m = r.tree.walk 0 (Name.segments m)
  /-- A node but the root occurs once in the child list of its parent, and in no other. -/
  listed : ∀ i, 0 < i → i < r.tree.nodes.size → ∃ p < r.tree.nodes.size,
    (r.tree.node i).parent = some p ∧
      ∀ q, (r.tree.node q).children.count i = if q = p then 1 else 0
  /-- Nothing but these nodes is listed. -/
  lists : ∀ p, ∀ c ∈ (r.tree.node p).children, 0 < c ∧ c < r.tree.nodes.size
  increasing : ∀ p, ((r.tree.node p).children.map fun c => (r.tree.node c).segment).Pairwise (· < ·)
  named : ∀ i p, (r.tree.node i).parent = some p →
    (r.tree.node i).tag.name = if p = 0 then (r.tree.node i).segment
      else (r.tree.node p).tag.name ++ "." ++ (r.tree.node i).segment

theorem Consistent.treeLaws {r : Registry} (h : r.Consistent) {accepted : List String}
    (haccepted : ∀ n, n ∈ r.logged ↔ n ∈ accepted) : TreeLaws r accepted := by
  constructor
  case registered =>
      intro m
      rw [contains, h.names]
      simp only [haccepted]
  case once => exact h.tree.tags_nodup
  case mapped => exact h.tree.names
  case walked => exact h.tree.position?_eq_walk
  case listed =>
      intro i hi hlt
      obtain ⟨p, hpi, hp, _⟩ := h.tree.parent i hi hlt
      exact ⟨p, Nat.lt_trans hpi hlt, hp, h.tree.count_children hp⟩
  case lists =>
      intro p c hc
      obtain ⟨hlt, hp⟩ := h.tree.child p c hc
      exact ⟨h.tree.pos_of_parent hp, hlt⟩
  case increasing => exact h.tree.sorted
  case named =>
      intro i p hp
      exact h.tree.name_of_parent hp

theorem treeLaws_of_run (o : Origin) (ops : List Operation) :
    TreeLaws (run o.registry.value ops) (o.accepted ++ acceptedBy o.registry.value ops) := by
  obtain ⟨settings, horigin⟩ := o.registry_grows
  have hrun := horigin.trans (run_grows horigin.consistent ops)
  refine hrun.consistent.treeLaws ?_
  intro n
  rw [hrun.logged]
  simp [logged, empty]

/-- A refused row leaves nothing, a late native one neither, and parents come along. -/
example : (run (empty {}) [.addNative ⟨"B.A", ""⟩, .load "List" .tagList [⟨"A", ""⟩, ⟨"A..B", ""⟩],
    .finalize, .addNative ⟨"C", ""⟩, .rebuild]).tags.map (·.name) = ["A", "B", "B.A"] := by
  decide +kernel

end TagTree.Registry
