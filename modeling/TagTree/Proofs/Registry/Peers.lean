import TagTree.Proofs.Registry.IndexLaws
import TagTree.Proofs.Tree.Walks
import TagTree.Proofs.Wire.Receiving

/-!
# Peers

Peers do not negotiate their indices: they agree because the order of the tags
and the index table are functions of the registered names and of a few settings.
In which order the names came in, from which sources, how often, and whether
before or after the registries were finalized makes no difference.

For the order of the tags the two trees are walked in step, which needs only
that they have the same names. For the indices it is enough that what is due is
the same: both registries are finalized, they have the same names, and the
settings of the index agree. The index of a tag is its position in the table or
the sentinel, so it agrees too, and with it every bit that is sent for a tag.

Which names a history registers is a matter of the rows it accepted, up to
dotted prefixes. Two histories with the same prefixes have registered the same
names even if one of them never accepted a row for some parent.
-/
namespace TagTree.Registry

theorem Consistent.sameNames {r r' : Registry} (hc : r.Consistent) (hc' : r'.Consistent)
    (h : ∀ m, r'.contains m = r.contains m) : Tree.SameNames r.tree r'.tree := by
  refine ⟨hc.tree, hc'.tree, ?_⟩
  intro m
  have hm := h m
  rw [Registry.contains, Registry.contains] at hm
  rw [hm]

namespace Alike
variable {r r' : Registry} (h : Alike r r')
include h

theorem tags : r'.tags = r.tags := by
  have hroot : r'.tree.tagAt 0 = r.tree.tagAt 0 :=
    h.right.tree.root_tag.trans h.left.tree.root_tag.symm
  exact (h.left.sameNames h.right h.contains).below h.left.tree.nonempty h.right.tree.nonempty hroot

theorem indexOf (hi : r.Indexed) (hi' : r'.Indexed) (t : Tag) : r'.indexOf t = r.indexOf t := by
  rw [hi.indexOf_eq h.left, hi'.indexOf_eq h.right, h.table hi hi']

end Alike

/-- Settings that agree on the index and on how it is sent. -/
structure WireSettings (s s' : Settings) : Prop where
  common : s'.common = s.common
  maxBits : s'.maxBits = s.maxBits
  firstBits : s'.firstBits = s.firstBits
  sizeBits : s'.sizeBits = s.sizeBits
  fast : s'.fast = s.fast

theorem sendTag_congr {r r' : Registry} (hlayout : r'.layout = r.layout)
    (hindex : ∀ t, r'.indexOf t = r.indexOf t) (w : BitWriter) (t : Tag) :
    r'.sendTag w t = r.sendTag w t := by
  simp only [sendTag, sendTags, writeTag, hlayout, hindex]

/-- Finalized registries that have accepted rows of the same dotted prefixes have one index table, one
layout and one order of the tags, and they send every tag alike. -/
theorem peers_agree {h h' : History} (hf : h.registry.finalized = true)
    (hf' : h'.registry.finalized = true) (hnames : ∀ m, h'.Registers m ↔ h.Registers m)
    (hsettings : WireSettings h.registry.settings h'.registry.settings) :
    h'.registry.table = h.registry.table ∧ h'.registry.layout = h.registry.layout ∧
      h'.registry.tags = h.registry.tags ∧
      ∀ w t, h'.registry.sendTag w t = h.registry.sendTag w t := by
  have halike : Alike h.registry h'.registry :=
    ⟨h.reachable.consistent, h'.reachable.consistent, History.contains_congr hnames,
      hf'.trans hf.symm, hsettings.common, hsettings.maxBits⟩
  have htable := halike.table h.reachable.indexed h'.reachable.indexed
  have hlayout : h'.registry.layout = h.registry.layout :=
    SameWire.layout ⟨htable, hsettings.fast, hsettings.firstBits, hsettings.sizeBits⟩
  exact ⟨htable, hlayout, halike.tags,
    sendTag_congr hlayout (halike.indexOf h.reachable.indexed h'.reachable.indexed)⟩

/-- Code registers the tags on one side, and on the other they come from sources, in another order,
with a parent of its own, a refused row and a repetition, and in part after the end. Both send the index
one of a tag as the bits 10, and 111 for a tag that has no index. -/
theorem peers_agree_shuffled :
    let settings : Settings := { common := ["B", "C"], maxBits := 2, firstBits := 1 }
    let h : History := ⟨.empty settings, [.addNatives [⟨"A.C", ""⟩, ⟨"B", ""⟩], .finalize]⟩
    let h' : History := ⟨.ofSettings { settings with rows := [⟨"B", "first"⟩] },
      [.load "List" .tagList [⟨"A..C", ""⟩, ⟨"B", ""⟩], .finalize, .addRow "Late" ⟨"A.C", ""⟩,
        .addRow "Later" ⟨"A", "parent"⟩]⟩
    h.registry.table = ⟨[⟨"B"⟩, ⟨"A"⟩]⟩ ∧ h'.registry.table = h.registry.table ∧
      h'.registry.layout = h.registry.layout ∧ h'.registry.tags = h.registry.tags ∧
      (∀ w t, h'.registry.sendTag w t = h.registry.sendTag w t) ∧
      h'.registry.sendTag .empty ⟨"A"⟩ = { writer := ⟨#[0b01], 2⟩, counted := [⟨"A"⟩] } ∧
      h'.registry.sendTag .empty ⟨"A.C"⟩ = { writer := ⟨#[0b111], 3⟩, counted := [⟨"A.C"⟩] } := by
  intro settings h h'
  have haccepted : h.accepted = ["A.C", "B"] := by decide +kernel
  have haccepted' : h'.accepted = ["B", "B", "A.C", "A"] := by decide +kernel
  have hnames : ∀ m, h'.Registers m ↔ h.Registers m := by
    intro m
    have hprefix : Name.DottedPrefix m "A" → Name.DottedPrefix m "A.C" := by
      have hparent : Name.ancestors "A.C" = ["A"] := by decide
      have hroot : Name.ancestors "A" = [] := by decide
      rw [Name.dottedPrefix_iff_ancestor, Name.dottedPrefix_iff_ancestor, hparent, hroot]
      simp only [List.mem_singleton, List.not_mem_nil, or_false]
      exact fun hm => ⟨hm.1, .inr hm.2⟩
    simp only [History.Registers, haccepted, haccepted', List.mem_cons, List.not_mem_nil, or_false,
      exists_eq_or_imp, exists_eq_left]
    tauto
  have hsettings : WireSettings h.registry.settings h'.registry.settings := by
    constructor <;> decide +kernel
  obtain ⟨htable, hlayout, htags, hsent⟩ :=
    peers_agree (by decide +kernel) (by decide +kernel) hnames hsettings
  exact ⟨by decide +kernel, htable, hlayout, htags, hsent, by decide +kernel, by decide +kernel⟩

end TagTree.Registry
