import TagTree.Proofs.Block.Declared

/-!
# Nodes of a block

A block as the list of its nodes, each with the identifiers on the way to it,
parents before children. The tables and the modules of a block are made by
separate traversals that carry the dotted path of a level along; each of them is
a view of this one list.

A node keeps its way as a list of identifiers instead of a name, because a way
tells on which level a name stands and whether it is raw, and the name does not.
`dotted` goes from ways to names. On ways of spelt identifiers it is injective
up to prefixes, so the comparison of names is the comparison of ways.

The traversals are compared with the list of nodes by induction on the
declarations, with the way to the level generalized. The order of the list is
stated by pairs: of two nodes the later is not on the way to the earlier. From
it follow both that parents stand before children in the tables and that no node
is listed twice.
-/
namespace TagTree.Block

def dotted (way : List Identifier) : String := String.intercalate "." (way.map (·.name))

section
variable {way : List Identifier} (h : ∀ i ∈ way, i.Spelt)
include h

theorem dotted_eq_below : dotted way = Name.below "" (way.map (·.name)) := by
  refine (Name.below_root ?_).symm
  intro s hs
  obtain ⟨i, hi, rfl⟩ := List.mem_map.mp hs
  exact (h i hi).plain.1

theorem spelt_snoc {name : Identifier} (hname : name.Spelt) : ∀ i ∈ way ++ [name], i.Spelt :=
  List.forall_mem_append.mpr ⟨h, List.forall_mem_singleton.mpr hname⟩

theorem child_dotted {name : Identifier} (hname : name.Spelt) :
    Name.child (dotted way) name.name = dotted (way ++ [name]) := by
  rw [dotted_eq_below h, dotted_eq_below (spelt_snoc h hname), List.map_append, Name.below_append]
  rfl

theorem path_dotted : Name.path (dotted way) = way.map (·.name) := by
  induction way using List.reverseRecOn with
  | nil => rfl
  | append_singleton way name ih =>
      obtain ⟨hway, hname⟩ := List.forall_mem_append.mp h
      have hname := List.forall_mem_singleton.mp hname
      rw [← child_dotted hway hname, Name.path_child _ hname.plain, ih hway, List.map_append]
      rfl

theorem prefix_of_dotted {other : List Identifier} (ho : ∀ i ∈ other, i.Spelt)
    (hpath : Name.path (dotted way) <+: Name.path (dotted other)) : way <+: other := by
  rw [path_dotted h, path_dotted ho] at hpath
  induction way generalizing other with
  | nil => exact List.nil_prefix
  | cons i way ih =>
      cases other with
      | nil => cases List.prefix_nil.mp hpath
      | cons j other =>
          obtain ⟨hi, hway⟩ := List.forall_mem_cons.mp h
          obtain ⟨hj, ho⟩ := List.forall_mem_cons.mp ho
          obtain ⟨hname, hpath⟩ := List.cons_prefix_cons.mp hpath
          exact List.cons_prefix_cons.mpr ⟨(hi.name_inj hj).mp hname, ih hway ho hpath⟩

theorem segments_dotted (hne : way ≠ []) : Name.segments (dotted way) = way.map (·.name) := by
  have hdotted : dotted way ≠ "" := by
    intro he
    have hpath := path_dotted h
    rw [he, Name.path_root] at hpath
    exact hne (List.map_eq_nil_iff.mp hpath.symm)
  rw [← Name.path_of_ne hdotted, path_dotted h]

end

/-- A declaration with the identifiers on the way to it from the root, its own the last. -/
structure Node where
  way : List Identifier
  attributes : Attributes

namespace Node

def path (n : Node) : String := dotted n.way

/-- Whether a node declares a tag. The others are redirected. -/
def isTag (n : Node) : Bool := n.attributes.redirect.isNone

def row? (n : Node) : Option Row :=
  match n.attributes.redirect with
  | some _ => none
  | none => some ⟨n.path, n.attributes.comment.getD ""⟩

def alias? (n : Node) : Option (String × StringLiteral) :=
  n.attributes.redirect.map fun target => (n.path, target)

theorem row?_eq_some {n : Node} {row : Row} :
    n.row? = some row ↔ n.isTag ∧ row = ⟨n.path, n.attributes.comment.getD ""⟩ := by
  unfold row? isTag
  split <;> rename_i h <;> simp [h, eq_comm]

theorem alias?_eq_some {n : Node} {entry : String × StringLiteral} :
    n.alias? = some entry ↔ n.attributes.redirect = some entry.2 ∧ entry.1 = n.path := by
  unfold alias?
  cases n.attributes.redirect with
  | none => simp
  | some target =>
      obtain ⟨old, literal⟩ := entry
      simp [and_comm, eq_comm]

end Node

namespace Declarations

/-- The nodes of declarations inside the node that `above` leads to, parents before children. -/
def nodes (above : List Identifier) : Declarations → List Node
  | nil => []
  | cons name a children rest =>
    let way := above ++ [name]
    ⟨way, a⟩ :: (children.nodes way ++ rest.nodes above)

theorem Spelt.way_of_mem_nodes {ds : Declarations} (h : ds.Spelt) {above : List Identifier}
    (ha : ∀ i ∈ above, i.Spelt) : ∀ n ∈ ds.nodes above, ∀ i ∈ n.way, i.Spelt := by
  induction ds generalizing above with
  | nil => exact List.forall_mem_nil _
  | cons name a children rest ihchildren ihrest =>
      obtain ⟨hname, hchildren, hrest⟩ := h
      have hway := spelt_snoc ha hname
      exact List.forall_mem_cons.mpr
        ⟨hway, List.forall_mem_append.mpr ⟨ihchildren hchildren hway, ihrest hrest ha⟩⟩

/-- A way goes through the level that the nodes stand on or below. -/
theorem way_of_mem_nodes {ds : Declarations} {above : List Identifier} :
    ∀ n ∈ ds.nodes above, ∃ i ∈ ds.level, above ++ [i] <+: n.way := by
  induction ds generalizing above with
  | nil => exact List.forall_mem_nil _
  | cons name a children rest ihchildren ihrest =>
      refine List.forall_mem_cons.mpr ⟨⟨name, List.mem_cons_self, List.prefix_refl _⟩, ?_⟩
      refine List.forall_mem_append.mpr ⟨?_, ?_⟩
      · intro n hn
        obtain ⟨i, _, hi⟩ := ihchildren n hn
        exact ⟨name, List.mem_cons_self, (List.prefix_append _ _).trans hi⟩
      · intro n hn
        obtain ⟨i, hi, hprefix⟩ := ihrest n hn
        exact ⟨i, List.mem_cons_of_mem _ hi, hprefix⟩

theorem exists_node_of_mem_level {ds : Declarations} (above : List Identifier) {i : Identifier}
    (hi : i ∈ ds.level) : ∃ n ∈ ds.nodes above, n.way = above ++ [i] := by
  induction ds with
  | nil => cases hi
  | cons name a children rest _ ihrest =>
      rcases List.mem_cons.mp hi with rfl | hi
      · exact ⟨_, List.mem_cons_self, rfl⟩
      · obtain ⟨n, hn, hway⟩ := ihrest hi
        exact ⟨n, List.mem_cons_of_mem _ (List.mem_append_right _ hn), hway⟩

theorem way_ne_nil {ds : Declarations} {above : List Identifier} {n : Node}
    (hn : n ∈ ds.nodes above) : n.way ≠ [] := by
  obtain ⟨i, _, hi⟩ := way_of_mem_nodes n hn
  rintro hnil
  rw [hnil, List.prefix_nil] at hi
  simp at hi

section
variable {ds : Declarations} (hs : ds.Spelt) {above : List Identifier} (ha : ∀ i ∈ above, i.Spelt)
include hs ha

theorem paths_eq_nodes : ds.paths (dotted above) = (ds.nodes above).map Node.path := by
  induction ds generalizing above with
  | nil => rfl
  | cons name a children rest ihchildren ihrest =>
      obtain ⟨hname, hchildren, hrest⟩ := hs
      rw [paths, child_dotted ha hname, ihchildren hchildren (spelt_snoc ha hname),
        ihrest hrest ha, nodes, List.map_cons, List.map_append]
      rfl

theorem WellFormed.rows_eq_nodes (h : ds.WellFormed) :
    ds.rows (dotted above) = (ds.nodes above).filterMap Node.row? := by
  induction h generalizing above with
  | nil => rfl
  | @cons name a children rest _ hleaf _ _ ihchildren ihrest =>
      obtain ⟨hname, hchildren, hrest⟩ := hs
      have hchild := ihchildren hchildren (spelt_snoc ha hname)
      have hlater := ihrest hrest ha
      have hpath := child_dotted ha hname
      cases hredirect : a.redirect with
      | some target =>
          have hempty := hleaf (by simp [hredirect])
          simp [rows, nodes, Node.row?, hredirect, hlater, hempty]
      | none => simp [rows, nodes, Node.row?, Node.path, hredirect, hlater, hpath, hchild]

theorem WellFormed.aliases_eq_nodes (h : ds.WellFormed) :
    ds.aliases (dotted above) = (ds.nodes above).filterMap Node.alias? := by
  induction h generalizing above with
  | nil => rfl
  | @cons name a children rest _ hleaf _ _ ihchildren ihrest =>
      obtain ⟨hname, hchildren, hrest⟩ := hs
      have hchild := ihchildren hchildren (spelt_snoc ha hname)
      have hlater := ihrest hrest ha
      have hpath := child_dotted ha hname
      cases hredirect : a.redirect with
      | some target =>
          have hempty := hleaf (by simp [hredirect])
          simp [aliases, nodes, Node.alias?, Node.path, hredirect, hlater, hempty, hpath]
      | none => simp [aliases, nodes, Node.alias?, hredirect, hlater, hpath, hchild]

end

/-- Tags stand on `k` levels exactly if none is more than `k` steps away. -/
theorem WellFormed.tagLevels_le {ds : Declarations} (h : ds.WellFormed) (above : List Identifier)
    (k : Nat) : ds.tagLevels ≤ k ↔
      ∀ n ∈ ds.nodes above, n.isTag → n.way.length ≤ above.length + k := by
  induction h generalizing above k with
  | nil => simp [tagLevels, nodes]
  | @cons name a children rest _ hleaf _ _ ihchildren ihrest =>
      rw [nodes, List.forall_mem_cons, List.forall_mem_append, ← ihrest]
      cases hredirect : a.redirect with
      | some target =>
          have hempty := hleaf (by simp [hredirect])
          simp [tagLevels, nodes, Node.isTag, hredirect, hempty]
      | none =>
          -- The declaration itself takes up one of the levels.
          have hinside : children.tagLevels + 1 ≤ k ↔ 1 ≤ k ∧
              ∀ n ∈ children.nodes (above ++ [name]), n.isTag → n.way.length ≤ above.length + k := by
            cases k with
            | zero => simp
            | succ k =>
                have hlength : (above ++ [name]).length + k = above.length + (k + 1) := by
                  simp only [List.length_append, List.length_singleton]
                  omega
                rw [Nat.succ_le_succ_iff, ihchildren (above ++ [name]) k, hlength]
                simp
          simp only [tagLevels, hredirect, Nat.max_le, hinside]
          simp [Node.isTag, hredirect, and_assoc]

/-- A node on the way to another does not stand after it. -/
theorem WellFormed.nodes_pairwise {ds : Declarations} (h : ds.WellFormed)
    (above : List Identifier) : (ds.nodes above).Pairwise fun m n => ¬ n.way <+: m.way := by
  induction h generalizing above with
  | nil => exact .nil
  | @cons name a children rest hnew _ _ _ ihchildren ihrest =>
      -- What is on the level later does not have this declaration on its way.
      have hlater : ∀ m : Node, above ++ [name] <+: m.way →
          ∀ n ∈ rest.nodes above, ¬ n.way <+: m.way := by
        intro m hm n hn hprefix
        obtain ⟨i, hi, hway⟩ := way_of_mem_nodes n hn
        rw [← eq_of_snoc_prefix hm (hway.trans hprefix)] at hi
        exact hnew hi
      have hinside : ∀ n ∈ children.nodes (above ++ [name]),
          ∃ i, above ++ [name] ++ [i] <+: n.way := by
        intro n hn
        obtain ⟨i, _, hi⟩ := way_of_mem_nodes n hn
        exact ⟨i, hi⟩
      refine List.pairwise_cons.mpr ⟨List.forall_mem_append.mpr ⟨?_, ?_⟩, ?_⟩
      · intro n hn hprefix
        obtain ⟨i, hi⟩ := hinside n hn
        have hlength := (hi.trans hprefix).length_le
        simp at hlength
      · exact hlater ⟨above ++ [name], a⟩ (List.prefix_refl _)
      · refine List.pairwise_append.mpr ⟨ihchildren _, ihrest above, ?_⟩
        intro m hm n hn
        obtain ⟨i, hi⟩ := hinside m hm
        exact hlater m ((List.prefix_append _ _).trans hi) n hn

theorem WellFormed.node_paths_pairwise {ds : Declarations} (h : ds.WellFormed) (hs : ds.Spelt)
    {above : List Identifier} (ha : ∀ i ∈ above, i.Spelt) :
    (ds.nodes above).Pairwise fun m n => ¬ Name.path n.path <+: Name.path m.path := by
  have hspelt := hs.way_of_mem_nodes ha
  refine (h.nodes_pairwise above).imp_of_mem ?_
  intro m n hm hn hnot hprefix
  exact hnot (prefix_of_dotted (hspelt n hn) (hspelt m hm) hprefix)

end Declarations

def nodes (b : Block) : List Node := b.declarations.nodes []

end TagTree.Block
