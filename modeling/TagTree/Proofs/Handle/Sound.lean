import TagTree.Handle
import TagTree.Proofs.Name.Lineage

/-!
# Sound handles

A handle is sound if it carries the handles that its name calls for, and these
are sound. Then its name says all there is to know of it: two sound handles of
one name are the same handle, matching is the prefix order on segments, and the
answers are those that are read off the name.

Soundness is defined along the nesting of a handle: the names of the stored
ancestors are the ancestors of its name, and every one of them is sound. From
this alone follows that two sound handles of one name are equal in all that they
carry, by induction on the length of the name, since an ancestor has a shorter
one.

Matching, lineage, depth and shared depth of handles are then computed on paths,
and each is the answer of the tag. The two halves of the development meet here:
registries are proved to hand out sound handles, and everything that is proved
of tags holds for handles through these equations.
-/
namespace TagTree

namespace Handle

inductive Sound : Handle → Prop
  | mk {h : Handle} (names : h.parents.map (·.name) = Name.ancestors h.name)
      (parents : ∀ p ∈ h.parents, Sound p) : Sound h

theorem Sound.names {h : Handle} (hs : h.Sound) :
    h.parents.map (·.name) = Name.ancestors h.name := by
  cases hs
  assumption

theorem Sound.parents {h : Handle} (hs : h.Sound) : ∀ p ∈ h.parents, p.Sound := by
  cases hs
  assumption

theorem eq_of_names_eq {as bs : List Handle}
    (heq : ∀ a ∈ as, ∀ b ∈ bs, a.name = b.name → a = b)
    (h : as.map (·.name) = bs.map (·.name)) : as = bs := by
  induction as generalizing bs with
  | nil => exact (List.map_eq_nil_iff.mp h.symm).symm
  | cons a as ih =>
      obtain ⟨b, rest, rfl, hhead, hrest⟩ := List.map_eq_cons_iff.mp h.symm
      have htail := ih (fun x hx y hy => heq x (List.mem_cons_of_mem _ hx) y
        (List.mem_cons_of_mem _ hy)) hrest.symm
      rw [heq a List.mem_cons_self b List.mem_cons_self hhead.symm, htail]

theorem Sound.eq_of_name_eq {a b : Handle} (ha : a.Sound) (hb : b.Sound) (h : a.name = b.name) :
    a = b := by
  induction ha generalizing b with
  | @mk a hnames _ ih =>
      have hparents : a.parents = b.parents := by
        apply eq_of_names_eq
        · intro p hp q hq
          exact ih p hp (hb.parents q hq)
        · rw [hnames, hb.names, h]
      cases a
      cases b
      exact congrArg₂ Handle.mk h hparents

theorem Sound.map_name_lineage {h : Handle} (hs : h.Sound) :
    h.lineage.map (·.name) = h.name :: Name.ancestors h.name := by
  rw [lineage, List.map_cons, hs.names]

theorem Sound.depth_eq {h : Handle} (hs : h.Sound) :
    h.depth = (Name.segments h.name).length := by
  rw [← Name.length_lineage, ← hs.map_name_lineage, List.length_map, depth]

theorem Sound.isUnder_iff {a : Handle} (ha : a.Sound) (b : Handle) :
    a.isUnder b ↔ Name.segments b.name <+: Name.segments a.name := by
  have hany : a.isUnder b = a.lineage.any (·.alike b) := rfl
  rw [← Name.mem_lineage, ← ha.map_name_lineage, hany, List.any_eq_true, List.mem_map]
  simp only [alike, beq_iff_eq]

theorem Sound.sharedDepth_eq {a b : Handle} (ha : a.Sound) (hb : b.Sound) : a.sharedDepth b =
    (Name.commonPrefix (Name.segments a.name) (Name.segments b.name)).length := by
  have hunder : b.isUnder =
      (fun m => decide (Name.segments m <+: Name.segments b.name)) ∘ Handle.name := by
    funext t
    exact Bool.eq_iff_iff.mpr ((hb.isUnder_iff t).trans decide_eq_true_iff.symm)
  rw [← Name.length_shared, ← ha.map_name_lineage, List.filter_map, List.length_map, sharedDepth,
    hunder]

theorem tag_beq (a b : Handle) : (a.tag == b.tag) = a.alike b := by
  apply Bool.eq_iff_iff.mpr
  simp [tag, alike]

theorem Sound.map_tag_parents {h : Handle} (hs : h.Sound) : h.parents.map (·.tag) = h.tag.parents := by
  rw [Tag.parents, tag, ← hs.names, List.map_map]
  rfl

theorem Sound.tag_directParent {h : Handle} (hs : h.Sound) :
    h.tag.directParent = (h.directParent?.map (·.tag)).getD .invalid := by
  rw [Tag.directParent, ← hs.map_tag_parents, List.headD_eq_head?_getD, List.head?_map, directParent?]

theorem Sound.tag_matches {a : Handle} (ha : a.Sound) (b : Handle) :
    (a.tag == b.tag || a.tag.parents.contains b.tag) = a.isUnder b := by
  have hparents : a.tag.parents.contains b.tag = a.parents.any (·.alike b) := by
    rw [← ha.map_tag_parents, List.contains_eq_any_beq, List.any_map]
    congr 1
    funext t
    rw [Function.comp_apply, BEq.comm, tag_beq]
  rw [tag_beq, hparents, isUnder]

theorem Sound.tag_lineage {h : Handle} (hs : h.Sound) (hvalid : h.tag.isValid) :
    h.tag.lineage = h.lineage.map (·.tag) := by
  rw [Tag.lineage, if_pos hvalid, lineage, List.map_cons, hs.map_tag_parents]

theorem Sound.tag_depth {h : Handle} (hs : h.Sound) (hvalid : h.tag.isValid) :
    h.tag.depth = h.depth := by
  rw [Tag.depth, hs.tag_lineage hvalid, List.length_map, depth]

theorem Sound.tag_isUnder {a b : Handle} (ha : a.Sound) (hva : a.tag.isValid)
    (hvb : b.tag.isValid) : a.tag.isUnder b.tag = a.isUnder b := by
  rw [Tag.isUnder, hva, hvb, ha.tag_matches]
  rfl

theorem Sound.tag_sharedDepth {a b : Handle} (ha : a.Sound) (hb : b.Sound) (hva : a.tag.isValid)
    (hvb : b.tag.isValid) : a.tag.sharedDepth b.tag = a.sharedDepth b := by
  have hmatches : (fun t => b.tag == t || b.tag.parents.contains t) ∘ tag = b.isUnder := by
    funext t
    exact hb.tag_matches t
  rw [Tag.sharedDepth, hva, hvb, Bool.and_true, if_pos rfl, ha.tag_lineage hva, List.filter_map,
    List.length_map, sharedDepth, hmatches]

end Handle
end TagTree
