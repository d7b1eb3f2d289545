import TagTree.Proofs.Container.Sound
import TagTree.Proofs.Registry.Requesting

/-!
# Containers made of registered tags

Tags come from registries, and with a registered tag its ancestors are
registered. Whatever is done with such tags, the containers that come out are
sound.

`Made` has one constructor for every operation that yields a container, with
what a caller has to know for it: tags are handles, so they are registered
somewhere or the invalid tag, and the quick insertion asks that the tag is valid
and new. Registered tags may come from different registries.

The invariant is `Issued`, soundness together with the registration of every
explicit tag. It has a lemma for each operation, and the induction over `Made`
only puts these together. Registration is what keeps the ancestors valid: an
ancestor of a registered tag is registered and therefore has a name, so making
ancestors explicit never makes the invalid tag explicit.
-/
namespace TagTree

namespace Tag

def Registered (t : Tag) : Prop := ∃ r : Registry, r.Reachable ∧ r.contains t.name

/-- The tags that a program can get hold of. -/
def IsHandle (t : Tag) : Prop := t = .invalid ∨ t.Registered

theorem Registered.isValid {t : Tag} (h : t.Registered) : t.isValid := by
  obtain ⟨r, hr, hc⟩ := h
  exact bne_iff_ne.mpr (hr.consistent.ne_empty_of_contains hc)

theorem Registered.parent {p t : Tag} (h : t.Registered) (hp : p ∈ t.parents) : p.Registered := by
  obtain ⟨r, hr, hc⟩ := h
  have hanc := mem_parents.mp hp
  have hproper := (hr.consistent.proper_of_contains hc).of_ancestor hanc
  exact ⟨r, hr, hr.consistent.contains_of_ancestor hc hanc hproper.ne_empty⟩

theorem IsHandle.registered {t : Tag} (h : t.IsHandle) (hvalid : t.isValid) : t.Registered := by
  rcases h with rfl | h
  · exact absurd hvalid (by decide)
  · exact h

end Tag

namespace Container

/-- What the operations make out of the tags of registries. -/
inductive Made : Container → Prop
  | new : Made empty
  | alone {t : Tag} : t.IsHandle → Made t.alone
  | ofList {ts : List Tag} : (∀ t ∈ ts, t.IsHandle) → Made (ofList ts)
  | addAll {c : Container} {ts : List Tag} : Made c → (∀ t ∈ ts, t.IsHandle) → Made (c.addAll ts)
  | add {c : Container} {t : Tag} : Made c → t.IsHandle → Made (c.add t)
  /-- The caller knows that the tag is valid and not explicit yet. -/
  | addFast {c : Container} {t : Tag} : Made c → t.IsHandle → t.isValid → t ∉ c.tags →
      Made (c.addFast t)
  | append {c d : Container} : Made c → Made d → Made (c.append d)
  | appendMatching {c source : Container} (wanted : Container) : Made c → Made source →
      Made (c.appendMatching source wanted)
  | addLeaf {c : Container} {t : Tag} : Made c → t.IsHandle → Made (c.addLeaf t).2
  | remove {c : Container} (t : Tag) : Made c → Made (c.remove t).2
  | removeAll {c : Container} (d : Container) : Made c → Made (c.removeAll d).2
  | removeName {c : Container} (name : String) : Made c → Made (c.removeName name).2
  | reset {c : Container} : Made c → Made c.reset
  | filter {c : Container} (d : Container) : Made c → Made (c.filter d)
  | filterExact {c : Container} (d : Container) : Made c → Made (c.filterExact d)
  | withParents {c : Container} : Made c → Made c.withParents

structure Issued (c : Container) : Prop where
  sound : c.Sound
  registered : ∀ t ∈ c.tags, t.Registered

theorem empty_issued : empty.Issued := ⟨empty_sound, by simp [empty]⟩

namespace Issued
variable {c d : Container} (h : c.Issued)
include h

theorem parents {p : Tag} (hp : p ∈ c.parents) : p.Registered := by
  rw [h.sound.cached] at hp
  obtain ⟨t, ht, hpt⟩ := mem_impliedParents.mp hp
  exact (h.registered t ht).parent hpt

theorem addAll {ts : List Tag} (hts : ∀ t ∈ ts, t.IsHandle) : (c.addAll ts).Issued := by
  refine ⟨h.sound.addAll ts, ?_⟩
  intro t ht
  rcases mem_addAll.mp ht with ht | ⟨ht, hvalid⟩
  · exact h.registered t ht
  · exact (hts t ht).registered hvalid

theorem add {t : Tag} (ht : t.IsHandle) : (c.add t).Issued := by
  have hone : ∀ u ∈ [t], u.IsHandle := by
    intro u hu
    rwa [List.mem_singleton.mp hu]
  exact h.addAll hone

theorem addFast {t : Tag} (ht : t.IsHandle) (hvalid : t.isValid) (hnew : t ∉ c.tags) :
    (c.addFast t).Issued := by
  refine ⟨h.sound.addFast hvalid hnew, ?_⟩
  intro u hu
  rcases List.mem_append.mp hu with hu | hu
  · exact h.registered u hu
  · rw [List.mem_singleton.mp hu]
    exact ht.registered hvalid

theorem append (hd : d.Issued) : (c.append d).Issued := by
  refine ⟨h.sound.append hd.sound, ?_⟩
  intro t ht
  rcases mem_foldl_addUnique.mp ht with ht | ht
  · exact h.registered t ht
  · exact hd.registered t ht

theorem handles (keep : Tag → Bool) : ∀ t ∈ c.tags.filter keep, t.IsHandle := by
  intro t ht
  exact .inr (h.registered t (List.mem_filter.mp ht).1)

theorem addLeaf {t : Tag} (ht : t.IsHandle) : (c.addLeaf t).2.Issued := by
  refine ⟨h.sound.addLeaf t, ?_⟩
  intro u hu
  rcases mem_of_mem_addLeaf hu with hu | ⟨rfl, hvalid⟩
  · exact h.registered u hu
  · exact ht.registered hvalid

theorem removeFirst (p : Tag → Bool) : (c.removeFirst p).2.Issued := by
  refine ⟨h.sound.removeFirst p, ?_⟩
  intro t ht
  rw [tags_removeFirst] at ht
  exact h.registered t (List.mem_of_mem_eraseP ht)

theorem restrict (keep : Tag → Bool) : (c.restrict keep).2.Issued := by
  refine ⟨h.sound.restrict keep, ?_⟩
  intro t ht
  rw [tags_restrict] at ht
  exact h.registered t (List.mem_filter.mp ht).1

theorem withParents : c.withParents.Issued := by
  refine ⟨h.sound.withParents fun p hp => (h.parents hp).isValid, ?_⟩
  intro t ht
  rcases mem_foldl_addUnique.mp ht with ht | ht
  · exact h.registered t ht
  · exact h.parents ht

end Issued

theorem Made.issued {c : Container} (h : Made c) : c.Issued := by
  induction h with
  | new => exact empty_issued
  | alone ht => exact empty_issued.add ht
  | ofList hts => exact empty_issued.addAll hts
  | addAll _ hts ih => exact ih.addAll hts
  | add _ ht ih => exact ih.add ht
  | addFast _ ht hvalid hnew ih => exact ih.addFast ht hvalid hnew
  | append _ _ ihc ihd => exact ihc.append ihd
  | appendMatching wanted _ _ ihc ihs => exact ihc.addAll (ihs.handles _)
  | addLeaf _ ht ih => exact ih.addLeaf ht
  | remove t _ ih => exact ih.removeFirst _
  | removeAll d _ ih => exact ih.restrict _
  | removeName name _ ih => exact ih.removeFirst _
  | reset _ _ => exact empty_issued
  | filter d _ ih => exact empty_issued.addAll (ih.handles _)
  | filterExact d _ ih => exact empty_issued.addAll (ih.handles _)
  | withParents _ ih => exact ih.withParents

/-- However a container was made, its cache is the one computed from scratch, and a tag is in it if an
explicit tag is that tag or below it. -/
theorem sound_of_made {c : Container} (h : Made c) :
    c.Sound ∧ ∀ x, c.has x = c.tags.any (·.isUnder x) :=
  ⟨h.issued.sound, h.issued.sound.has_eq⟩

/-- A union whose caches overlap, with the ancestors made explicit before a removal. -/
theorem sound_of_made_union :
    let c := (((ofList [⟨"A.B.C"⟩, .invalid, ⟨"D"⟩]).append
      (ofList [⟨"A.B"⟩, ⟨"A.B.C"⟩])).withParents.remove ⟨"A.B.C"⟩).2
    c = ⟨[⟨"D"⟩, ⟨"A.B"⟩, ⟨"A"⟩], [⟨"A"⟩]⟩ ∧ c.Sound ∧
      ∀ x, c.has x = c.tags.any (·.isUnder x) := by
  intro c
  let r := (Registry.empty {}).run [.addNatives [⟨"A.B.C", ""⟩, ⟨"D", ""⟩], .finalize]
  have hr : r.Reachable := Registry.Reachable.run (.origin (.empty _)) _
  have hhandle : ∀ t : Tag, t = .invalid ∨ r.contains t.name → t.IsHandle := by
    intro t ht
    exact ht.imp_right fun hc => ⟨r, hr, hc⟩
  have hmade : Made c := by
    apply Made.remove
    apply Made.withParents
    apply Made.append
    · apply Made.ofList
      intro t ht
      exact hhandle t (by revert t; decide +kernel)
    · apply Made.ofList
      intro t ht
      exact hhandle t (by revert t; decide +kernel)
  exact ⟨by decide +kernel, sound_of_made hmade⟩

end Container
end TagTree
