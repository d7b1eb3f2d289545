import TagTree.Proofs.Name.Ancestors
import TagTree.Proofs.Registry.Lookup
import TagTree.Proofs.Registry.Run

/-!
# Requests for registered names

A registered name is accepted as a tag name and a request for it gives its tag,
whatever redirects there are. The reserved name is the one exception: it can be
registered as an ancestor, but a request for it always gives the invalid tag.

The map of names leads from a name to the one node of that name, so a tag that
is found bears the name that was asked for. A registered name has no empty
segment and is legible, being a dotted prefix of an accepted one; so it is valid
unless it is the reserved name, and the only thing that a request looks at
before the map is whether the name stands for no tag.

Redirects are looked at for names that are not registered. A redirect of a
registered name is therefore without effect, also of one that is registered only
because of longer names.
-/
namespace TagTree.Registry

namespace Consistent
variable {r : Registry} (h : r.Consistent)
include h

theorem find?_eq (name : String) :
    r.find? name = if r.contains name then some ⟨name⟩ else none := by
  unfold find? contains Tree.node?
  cases hp : r.tree.position? name with
  | none => rfl
  | some i =>
      have hname : (r.tree.node i).tag.name = name := ((h.tree.names name i).mp hp).2.2
      exact congrArg (some ∘ Tag.mk) hname

theorem ne_empty_of_contains {name : String} (hc : r.contains name) : name ≠ "" := by
  obtain ⟨n, _, hprefix⟩ := (h.names name).mp hc
  exact hprefix.1

theorem isValid_of_find? {name : String} {t : Tag} (hfind : r.find? name = some t) : t.isValid := by
  rw [h.find?_eq] at hfind
  split at hfind
  · rename_i hc
    cases hfind
    exact bne_iff_ne.mpr (h.ne_empty_of_contains hc)
  · cases hfind

theorem contains_of_ancestor {m name : String} (hc : r.contains name)
    (hm : m ∈ Name.ancestors name) (hne : m ≠ "") : r.contains m := by
  obtain ⟨n, hn, hprefix⟩ := (h.names name).mp hc
  exact (h.names m).mpr ⟨n, hn, hprefix.of_ancestor hm hne⟩

theorem proper_of_contains {name : String} (hc : r.contains name) : Name.Proper name := by
  obtain ⟨n, hn, hprefix⟩ := (h.names name).mp hc
  have hproper := (h.valid n hn).proper
  rcases (Name.dottedPrefix_iff_ancestor.mp hprefix).2 with rfl | hanc
  · exact hproper
  · exact hproper.of_ancestor hanc

theorem valid_of_contains {name : String} (hc : r.contains name) (hnone : name ≠ Name.none) :
    Name.Valid name := by
  obtain ⟨n, hn, hprefix⟩ := (h.names name).mp hc
  exact (h.valid n hn).of_dottedPrefix hprefix hnone

theorem lookup_of_contains {name : String} (hc : r.contains name) (hnone : name ≠ Name.none) :
    (r.lookup name).value = ⟨name⟩ := by
  have hne := h.ne_empty_of_contains hc
  rw [lookup, if_neg (by simp [hne, hnone]), h.find?_eq, if_pos hc]
  rfl

theorem contains_node {i : Nat} (hi : 0 < i) (hlt : i < r.tree.nodes.size) :
    r.contains (r.tree.node i).tag.name := by
  rw [contains, (h.tree.names _ i).mpr ⟨hi, hlt, rfl⟩]
  rfl

end Consistent

theorem lookup_none (r : Registry) : (r.lookup Name.none).value = .invalid := by
  rw [lookup, if_pos (.inr rfl)]
  rfl

theorem requestIf_eq_lookup (r : Registry) (report : Bool) (name : String) :
    (r.requestIf report name).value.2 = (r.lookup name).value := by
  rw [requestIf_eq_request, request_eq_lookup]

/-- Every node but one of the reserved name can be requested under its own name. -/
theorem request_node {r : Registry} (h : Reachable r) {i : Nat} (hi : 0 < i)
    (hlt : i < r.tree.nodes.size) :
    let t := (r.tree.node i).tag
    (t.name ≠ Name.none →
      Name.Valid t.name ∧ ∀ report, (r.requestIf report t.name).value.2 = t) ∧
    (t.name = Name.none →
      ¬ Name.Valid t.name ∧ ∀ report, (r.requestIf report t.name).value.2 = .invalid) := by
  intro t
  have hc : r.contains t.name := h.consistent.contains_node hi hlt
  constructor
  · intro hnone
    have hlookup := h.consistent.lookup_of_contains hc hnone
    refine ⟨h.consistent.valid_of_contains hc hnone, ?_⟩
    intro report
    rw [requestIf_eq_lookup, hlookup]
  · intro hnone
    rw [hnone]
    refine ⟨by decide, ?_⟩
    intro report
    rw [requestIf_eq_lookup, lookup_none]

/-- An implicit parent that has a redirect, beside one of the reserved name. -/
theorem request_node_shadowed :
    let r := (empty {}).run [.addNative ⟨"None.X", ""⟩, .addNative ⟨"A.B", ""⟩,
      .addRedirect ⟨"A", "A.B"⟩]
    (r.tree.node 3).tag.name = "A" ∧ Name.Valid "A" ∧
      ∀ report, (r.requestIf report "A").value.2 = ⟨"A"⟩ := by
  intro r
  have hreachable : Reachable r := Reachable.run (.origin (.empty _)) _
  have htag : (r.tree.node 3).tag = ⟨"A"⟩ := by decide +kernel
  have hnode := (request_node hreachable (i := 3) (by decide) (by decide +kernel)).1
  rw [htag] at hnode
  exact ⟨by rw [htag], hnode (by decide)⟩

/-- The reserved name is registered with the names below it, and is then not found. -/
theorem request_node_reserved :
    let r := (empty {}).run [.addNative ⟨"None.X", ""⟩]
    (r.tree.node 1).tag = ⟨"None"⟩ ∧ ¬ Name.Valid "None" ∧
      (r.requestIf false "None").value.2 ≠ (r.tree.node 1).tag := by
  decide +kernel

end TagTree.Registry
