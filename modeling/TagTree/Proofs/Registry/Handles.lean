import TagTree.Proofs.Container.Made
import TagTree.Proofs.Handle.Sound
import TagTree.Proofs.Registry.Redirecting

/-!
# Handles of all registries

A node copies the handles of its ancestors from its parent when it is made, and
nothing changes them afterwards. So every handle that any registry gives out in
any state is sound, and handles can be kept while registries load more, are
rebuilt or go away: those of one name are one and the same.

`Issued` collects the handles that a program can hold, from any registry in any
state that a run leads to, together with the handles that those carry. They are
sound because a node of a well-formed tree hands its own handle and those of its
ancestors on to its children; this is a field of the shape of a tree and is kept
by every step.

From soundness follows everything that is said of one handle and of two.
`Ancestry` says that the stored ancestors are the dotted prefixes of the name
and answer as the name does. `Matching` says that two handles of one name are
equal, that matching is being a prefix of the segments, and that what two
handles share is the longest common prefix.
-/
namespace TagTree

namespace Tree.WellFormed
variable {t : Tree} (h : t.WellFormed)
include h

theorem lineage_eq {p : Nat} (hp : p < t.nodes.size) :
    (t.node p).lineage = if p = 0 then [] else (t.node p).handle.lineage := by
  have hvalid : (t.node p).tag.isValid ↔ ¬ p = 0 :=
    bne_iff_ne.trans (not_congr (h.name_eq_empty_iff hp))
  rw [Node.lineage]
  simp only [hvalid, ite_not]

theorem handle_sound {i : Nat} (hi : 0 < i) (hlt : i < t.nodes.size) : (t.node i).handle.Sound := by
  -- A node has its ancestors from its parent, which stands before it.
  induction i using Nat.strongRecOn with
  | ind i ih =>
      obtain ⟨p, hpi, hp, _⟩ := h.parent i hi hlt
      obtain ⟨hplain, hname⟩ := h.name i p hp
      have hplt : p < t.nodes.size := Nat.lt_trans hpi hlt
      have hparents : (t.node i).handle.parents =
          if p = 0 then [] else (t.node p).handle.lineage := (h.above i p hp).trans (h.lineage_eq hplt)
      have hancestors : Name.ancestors (t.node i).handle.name =
          if p = 0 then [] else (t.node p).tag.name :: Name.ancestors (t.node p).tag.name := by
        have hchild := Name.ancestors_child (t.node p).tag.name hplain
        rw [← hname] at hchild
        simp only [h.name_eq_empty_iff hplt] at hchild
        exact hchild
      rcases Nat.eq_zero_or_pos p with h0 | h0
      · rw [if_pos h0] at hparents hancestors
        refine .mk ?_ ?_
        · rw [hparents, hancestors, List.map_nil]
        · rw [hparents]
          nofun
      · have hparent := ih p hpi h0 hplt
        rw [if_neg (Nat.pos_iff_ne_zero.mp h0)] at hparents hancestors
        refine .mk ?_ ?_
        · rw [hparents, hancestors]
          exact hparent.map_name_lineage
        · rw [hparents]
          intro q hq
          rcases List.mem_cons.mp hq with rfl | hq
          · exact hparent
          · exact hparent.parents q hq

end Tree.WellFormed

namespace Registry.Consistent
variable {r : Registry} (h : r.Consistent)
include h

theorem handle_of_contains {name : String} (hc : r.contains name) :
    ∃ a : Handle, r.handle? name = some a ∧ a.name = name := by
  obtain ⟨i, hi⟩ := Option.isSome_iff_exists.mp hc
  have hname := ((h.tree.names name i).mp hi).2.2
  refine ⟨(r.tree.node i).handle, ?_, hname⟩
  rw [handle?, Tree.node?, hi]
  rfl

theorem sound_of_handle? {name : String} {a : Handle} (ha : r.handle? name = some a) :
    a.Sound ∧ r.contains a.name := by
  obtain ⟨n, hn, rfl⟩ := Option.map_eq_some_iff.mp ha
  obtain ⟨i, hi, rfl⟩ := Option.map_eq_some_iff.mp hn
  obtain ⟨hpos, hlt, _⟩ := (h.tree.names name i).mp hi
  exact ⟨h.tree.handle_sound hpos hlt, h.contains_node hpos hlt⟩

theorem contains_lookup {name : String} (hvalid : (r.lookup name).value.isValid) :
    r.contains (r.lookup name).value.name := by
  have hfind : ∀ m tag, r.find? m = some tag → r.contains tag.name := by
    intro m tag hm
    rw [h.find?_eq] at hm
    split at hm
    · cases hm
      assumption
    · cases hm
  unfold lookup at hvalid ⊢
  split at hvalid
  · cases hvalid
  · rename_i hname
    rw [if_neg hname]
    cases hf : r.find? name with
    | some tag => exact hfind name tag hf
    | none =>
        rw [hf] at hvalid
        dsimp only at hvalid ⊢
        rw [Logged.value_bind] at hvalid ⊢
        cases hr : (r.resolve name).value with
        | none =>
            rw [hr] at hvalid
            cases hvalid
        | some tag =>
            obtain ⟨m, hm⟩ := follow_found hr
            exact hfind m tag hm

end Registry.Consistent

namespace Handle

/-- Given out by some registry in some state of some run, or taken from another handle. -/
inductive Issued : Handle → Prop
  | given {r : Registry} {name : String} {h : Handle} :
    r.Reachable → r.handle? name = some h → Issued h
  | ancestor {h p : Handle} : Issued h → p ∈ h.parents → Issued p

theorem Issued.sound {h : Handle} (hi : h.Issued) : h.Sound := by
  induction hi with
  | given hr hgiven => exact (hr.consistent.sound_of_handle? hgiven).1
  | ancestor _ hp ih => exact ih.parents _ hp

theorem Issued.registered {h : Handle} (hi : h.Issued) : h.tag.Registered := by
  induction hi with
  | @given r name h hr hgiven => exact ⟨r, hr, (hr.consistent.sound_of_handle? hgiven).2⟩
  | @ancestor h p hh hp ih =>
      refine ih.parent ?_
      rw [← hh.sound.map_tag_parents]
      exact List.mem_map_of_mem hp

theorem Issued.proper {h : Handle} (hi : h.Issued) : Name.Proper h.name := by
  obtain ⟨r, hr, hc⟩ := hi.registered
  exact hr.consistent.proper_of_contains hc

/-- What a handle says of its place in the hierarchy. -/
structure Ancestry (a : Handle) : Prop where
  valid : a.tag.isValid
  /-- The ancestors are the dotted prefixes but the name itself. -/
  prefixes : ∀ m, m ∈ a.parents.map (·.name) ↔ Name.DottedPrefix m a.name ∧ m ≠ a.name
  longestFirst : (a.parents.map (·.name)).Pairwise fun m n => n.length < m.length
  depth : a.depth = (Name.segments a.name).length
  tagParents : a.tag.parents = a.parents.map (·.tag)
  tagLineage : a.tag.lineage = a.lineage.map (·.tag)
  tagDirectParent : a.tag.directParent = (a.directParent?.map (·.tag)).getD .invalid
  tagDepth : a.tag.depth = a.depth

/-- How two handles compare, wherever they come from. -/
structure Matching (a b : Handle) : Prop where
  same : a.name = b.name → a = b
  under : a.isUnder b ↔ Name.segments b.name <+: Name.segments a.name
  antisymm : a.isUnder b → b.isUnder a → a = b
  /-- What they share is the longest common prefix of their segments. -/
  shared : ∃ p, (∀ q, q <+: p ↔ q <+: Name.segments a.name ∧ q <+: Name.segments b.name) ∧
    a.sharedDepth b = p.length
  symm : a.sharedDepth b = b.sharedDepth a
  tagUnder : a.tag.isUnder b.tag = a.isUnder b
  tagShared : a.tag.sharedDepth b.tag = a.sharedDepth b

theorem Issued.ancestry {a : Handle} (ha : a.Issued) : a.Ancestry := by
  have hsound := ha.sound
  have hvalid := ha.registered.isValid
  constructor
  case valid => exact hvalid
  case prefixes =>
      intro m
      rw [hsound.names]
      exact Name.mem_ancestors_iff ha.proper
  case longestFirst =>
      rw [hsound.names]
      exact Name.ancestors_pairwise a.name
  case depth => exact hsound.depth_eq
  case tagParents => exact hsound.map_tag_parents.symm
  case tagLineage => exact hsound.tag_lineage hvalid
  case tagDirectParent => exact hsound.tag_directParent
  case tagDepth => exact hsound.tag_depth hvalid

theorem Issued.matching {a b : Handle} (ha : a.Issued) (hb : b.Issued) : a.Matching b := by
  have hva := ha.registered.isValid
  have hvb := hb.registered.isValid
  constructor
  case same => exact ha.sound.eq_of_name_eq hb.sound
  case under => exact ha.sound.isUnder_iff b
  case antisymm =>
      intro hab hba
      have hle := (ha.sound.isUnder_iff b).mp hab
      have hge := (hb.sound.isUnder_iff a).mp hba
      have hsegments := hge.eq_of_length_le hle.length_le
      exact ha.sound.eq_of_name_eq hb.sound (Name.segments_inj.mp hsegments)
  case shared =>
      exact ⟨_, fun q => Name.prefix_commonPrefix, ha.sound.sharedDepth_eq hb.sound⟩
  case symm =>
      rw [ha.sound.sharedDepth_eq hb.sound, hb.sound.sharedDepth_eq ha.sound, Name.commonPrefix_comm]
  case tagUnder => exact ha.sound.tag_isUnder hva hvb
  case tagShared => exact ha.sound.tag_sharedDepth hb.sound hva hvb

/-- Registries answer with tags whose handles they hold. Handles of any registries and states know
their ancestors, are told apart by their names and match in the order of the segments. -/
theorem handles_interchangeable {a b : Handle} (ha : a.Issued) (hb : b.Issued) :
    a.Ancestry ∧ a.Matching b ∧ a.isUnder a ∧
      (∀ c : Handle, a.isUnder b → b.isUnder c → a.isUnder c) ∧
      ∀ (r : Registry) (name : String), r.Reachable → (r.request name).value.2.isValid →
        ∃ h, r.handle? (r.request name).value.2.name = some h ∧ h.Issued ∧
          h.tag = (r.request name).value.2 := by
  refine ⟨ha.ancestry, ha.matching hb, ?_, ?_, ?_⟩
  · exact (ha.sound.isUnder_iff a).mpr (List.prefix_refl _)
  · intro c hab hbc
    have hb' := (ha.sound.isUnder_iff b).mp hab
    have hc' := (hb.sound.isUnder_iff c).mp hbc
    exact (ha.sound.isUnder_iff c).mpr (hc'.trans hb')
  · intro r name hr hvalid
    rw [Registry.request_eq_lookup] at hvalid ⊢
    have hcontains := hr.consistent.contains_lookup hvalid
    obtain ⟨h, hh, hname⟩ := hr.consistent.handle_of_contains hcontains
    exact ⟨h, hh, .given hr hh, congrArg Tag.mk hname⟩

/-- A handle from before a late load and a rebuild, one from after them, and one of another registry. -/
theorem handles_interchangeable_kept :
    let r := Registry.run (.empty {}) [.addNative ⟨"A.B.C", ""⟩, .finalize]
    let later := r.run [.addRow "Table" ⟨"A.B.D", ""⟩, .rebuild]
    let other := Registry.run (.empty {}) [.load "List" .tagList [⟨"A.B", ""⟩]]
    let ab : Handle := ⟨"A.B", [⟨"A", []⟩]⟩
    let abc : Handle := ⟨"A.B.C", [ab, ⟨"A", []⟩]⟩
    let abd : Handle := ⟨"A.B.D", [ab, ⟨"A", []⟩]⟩
    r.handle? "A.B.C" = some abc ∧ later.handle? "A.B.D" = some abd ∧
      other.handle? "A.B" = some ab ∧ abc.Ancestry ∧ abc.Matching abd ∧ abc.Matching ab ∧
      abc.isUnder ab ∧ abc.sharedDepth abd = 2 := by
  intro r later other ab abc abd
  have hr : r.Reachable := .run (.origin (.empty _)) _
  have hother : other.Reachable := .run (.origin (.empty _)) _
  have habc : r.handle? "A.B.C" = some abc := by decide +kernel
  have habd : later.handle? "A.B.D" = some abd := by decide +kernel
  have hab : other.handle? "A.B" = some ab := by decide +kernel
  obtain ⟨hancestry, hmatching, _⟩ :=
    handles_interchangeable (.given hr habc) (.given (hr.run _) habd)
  have hforeign := (handles_interchangeable (.given hr habc) (.given hother hab)).2.1
  exact ⟨habc, habd, hab, hancestry, hmatching, hforeign, by decide, by decide⟩

end Handle
end TagTree
