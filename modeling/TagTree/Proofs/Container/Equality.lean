import TagTree.Proofs.Container.Made
import TagTree.Query.Basic

/-!
# Equality of containers

Containers are compared by the number of their explicit tags and by how many of
these the other lists as well. Between sound containers this decides whether
they hold the same set of tags, in whatever order. Nothing that can be asked of
containers tells equal ones apart, and whatever is done with equal ones comes
out equal.

The comparison that programs run counts; what it decides is a permutation,
because neither side has a tag twice. As a relation on sound containers it is
therefore an equivalence. For caches the same holds up to order: the caches of
equal containers have the same members, since both are the ancestors of the same
tags.

`Interchangeable` has one field for every question and every operation, with a
second container that may be replaced by an equal one too. Each operation is
described by the members of its result, so equality of results is equality of
sets. Making parents explicit asks that the cache holds valid tags only, which
is true of every container that a program can make from the tags of registries.
-/
namespace TagTree.Container

theorem isListedIn_iff {t : Tag} {c : Container} : t.isListedIn c ↔ t ∈ c.tags ∧ t.isValid := by
  simp [Tag.isListedIn, Tag.isExactly]

namespace Sound
variable {a b : Container} (ha : a.Sound)
include ha

theorem tags_ofList_filter (keep : Tag → Bool) :
    (ofList (a.tags.filter keep)).tags = a.tags.filter keep := by
  have hsub : (a.tags.filter keep).Sublist a.tags := List.filter_sublist
  rw [ofList_of_nodup (fun t ht => ha.valid t (hsub.subset ht)) (ha.nodup.sublist hsub)]
  rfl

theorem tags_filterExact (d : Container) :
    (a.filterExact d).tags = a.tags.filter (·.isListedIn d) := ha.tags_ofList_filter _

theorem same_iff_subset : a.same b ↔ a.tags.length = b.tags.length ∧ a.tags ⊆ b.tags := by
  have hsub : (a.tags.filter (·.isListedIn b)).Sublist a.tags := List.filter_sublist
  have hlisted : (a.filterExact b).size = a.size ↔ a.tags ⊆ b.tags := by
    rw [size, size, ha.tags_filterExact]
    constructor
    · intro hlength t ht
      rw [← hsub.eq_of_length hlength] at ht
      exact (isListedIn_iff.mp (List.mem_filter.mp ht).2).1
    · intro hsubset
      rw [List.filter_eq_self.mpr]
      intro t ht
      exact isListedIn_iff.mpr ⟨hsubset ht, ha.valid t ht⟩
  rw [same, Bool.and_eq_true, beq_iff_eq, beq_iff_eq, hlisted, size, size]

theorem same_iff_perm : a.same b ↔ a.tags.Perm b.tags := by
  rw [ha.same_iff_subset]
  constructor
  · rintro ⟨hlength, hsubset⟩
    exact (List.subperm_of_subset ha.nodup hsubset).perm_of_length_le hlength.ge
  · intro h
    exact ⟨h.length_eq, h.subset⟩

theorem same_iff (hb : b.Sound) : a.same b ↔ ∀ t, t ∈ a.tags ↔ t ∈ b.tags := by
  rw [ha.same_iff_perm, List.perm_ext_iff_of_nodup ha.nodup hb.nodup]

theorem same_of_mem (hb : b.Sound) (h : ∀ t, t ∈ a.tags ↔ t ∈ b.tags) : a.same b :=
  (ha.same_iff hb).mpr h

end Sound

theorem same_equivalence :
    Equivalence fun a b : { c : Container // c.Sound } => (a.1.same b.1 : Prop) where
  refl a := a.2.same_iff_perm.mpr (List.Perm.refl _)
  symm {a b} h := b.2.same_iff_perm.mpr (a.2.same_iff_perm.mp h).symm
  trans {a b _} h k :=
    a.2.same_iff_perm.mpr ((a.2.same_iff_perm.mp h).trans (b.2.same_iff_perm.mp k))

theorem mem_ofList {ts : List Tag} {u : Tag} : u ∈ (ofList ts).tags ↔ u ∈ ts ∧ u.isValid := by
  rw [ofList, mem_addAll]
  simp [empty]

theorem ofList_sound (ts : List Tag) : (ofList ts).Sound := empty_sound.addAll ts

theorem mem_append {c d : Container} {u : Tag} :
    u ∈ (c.append d).tags ↔ u ∈ c.tags ∨ u ∈ d.tags := mem_foldl_addUnique

theorem mem_withParents {c : Container} {u : Tag} :
    u ∈ c.withParents.tags ↔ u ∈ c.tags ∨ u ∈ c.parents := mem_foldl_addUnique

/-- A leaf that no explicit tag implies takes the place of its ancestors. -/
theorem mem_addLeaf {c : Container} {t u : Tag} : u ∈ (c.addLeaf t).2.tags ↔
    if t.isValid ∧ ¬ c.has t then u ∈ c.tags ∧ u ∉ t.parents ∨ u = t else u ∈ c.tags := by
  rw [addLeaf_eq]
  split
  · rename_i hnew
    rw [mem_add, tags_restrict, List.mem_filter]
    simp [hnew.1]
  · rfl

theorem addLeaf_fst (c : Container) (t : Tag) :
    (c.addLeaf t).1 = (t.isValid && (c.hasExact t || !c.has t)) := by
  unfold addLeaf
  cases t.isValid <;> cases c.hasExact t <;> cases c.has t <;> rfl

theorem restrict_fst (c : Container) (keep : Tag → Bool) :
    (c.restrict keep).1 = !c.tags.all keep := by
  unfold restrict
  dsimp only
  split
  · rename_i hlength
    have hall := List.filter_eq_self.mp (List.filter_sublist.eq_of_length hlength)
    simpa using hall
  · rename_i hlength
    symm
    rw [Bool.not_eq_true', Bool.eq_false_iff]
    intro hall
    rw [List.all_eq_true] at hall
    exact hlength (by rw [List.filter_eq_self.mpr hall])

theorem removeFirst_fst (c : Container) (p : Tag → Bool) : (c.removeFirst p).1 = c.tags.any p := by
  unfold removeFirst
  split <;> simp_all

theorem evalExpr_congr {a a' : Container} (h : ∀ t, a.has t = a'.has t) (dict : List Tag) :
    QueryStream.evalExpr dict a = QueryStream.evalExpr dict a' := by
  have htag : QueryStream.evalTag dict a = QueryStream.evalTag dict a' := by
    unfold QueryStream.evalTag
    simp only [h]
  funext levels
  induction levels with
  | zero => rfl
  | succ levels ih =>
      funext skip s
      rw [QueryStream.evalExpr, QueryStream.evalExpr, ih, htag]

theorem holds_congr {a a' : Container} (h : ∀ t, a.has t = a'.has t) (q : Query) :
    q.holds a = q.holds a' := by
  unfold Query.holds QueryStream.evaluate
  rw [evalExpr_congr h]

/-- What is asked of `a`, with `b` beside it and `w` as what is wanted, and what is done with it, comes
out the same as for `a'`, `b'` and `w'`. -/
structure Interchangeable (a b w a' b' w' : Container) : Prop where
  has : ∀ t, a.has t = a'.has t
  hasExact : ∀ t, a.hasExact t = a'.hasExact t
  hasAny : a.hasAny b = a'.hasAny b'
  hasAnyExact : a.hasAnyExact b = a'.hasAnyExact b'
  hasAll : a.hasAll b = a'.hasAll b'
  hasAllExact : a.hasAllExact b = a'.hasAllExact b'
  holds : ∀ q : Query, q.holds a = q.holds a'
  filter : (a.filter b).same (a'.filter b')
  filterExact : (a.filterExact b).same (a'.filterExact b')
  append : (a.append b).same (a'.append b')
  appendMatching : (a.appendMatching b w).same (a'.appendMatching b' w')
  add : ∀ t, (a.add t).same (a'.add t)
  addLeaf : ∀ t, (a.addLeaf t).1 = (a'.addLeaf t).1 ∧ (a.addLeaf t).2.same (a'.addLeaf t).2
  remove : ∀ t, (a.remove t).1 = (a'.remove t).1 ∧ (a.remove t).2.same (a'.remove t).2
  removeAll : (a.removeAll b).1 = (a'.removeAll b').1 ∧ (a.removeAll b).2.same (a'.removeAll b').2
  /-- Asked of valid caches only. Those of containers that were made of
  registered tags are valid. -/
  withParents : (∀ p ∈ a.parents, p.isValid) → a.withParents.same a'.withParents

variable {a b w a' b' w' : Container}

section
variable (ha : a.Sound) (ha' : a'.Sound)
  (h : a.tags.Perm a'.tags) (k : b.tags.Perm b'.tags) (l : w.tags.Perm w'.tags)

include ha ha' h in
theorem has_congr (t : Tag) : a.has t = a'.has t := by
  rw [ha.has_eq, ha'.has_eq, h.any_eq]

include h in
theorem hasExact_congr (t : Tag) : a.hasExact t = a'.hasExact t := by
  rw [hasExact, hasExact, Bool.eq_iff_iff]
  simp only [Bool.and_eq_true, List.contains_iff_mem, h.mem_iff]

include ha ha' h in
theorem mem_parents_congr (p : Tag) : p ∈ a.parents ↔ p ∈ a'.parents := by
  rw [ha.cached, ha'.cached, mem_impliedParents, mem_impliedParents]
  simp only [h.mem_iff]

include k in
theorem isUnderAny_congr (t : Tag) : t.isUnderAny b = t.isUnderAny b' := k.any_eq

include ha ha' h k l in
theorem interchangeable (hb : b.Sound) (hb' : b'.Sound) : Interchangeable a b w a' b' w' := by
  have hhas := has_congr ha ha' h
  have hexact := hasExact_congr h
  have hmem : ∀ t, t ∈ a.tags ↔ t ∈ a'.tags := fun t => h.mem_iff
  have hmem' : ∀ t, t ∈ b.tags ↔ t ∈ b'.tags := fun t => k.mem_iff
  constructor
  case has => exact hhas
  case hasExact => exact hexact
  case hasAny =>
      rw [hasAny, hasAny, funext hhas]
      exact k.any_eq
  case hasAnyExact =>
      rw [hasAnyExact, hasAnyExact, funext hexact]
      exact k.any_eq
  case hasAll =>
      rw [hasAll, hasAll, funext hhas]
      exact k.all_eq
  case hasAllExact =>
      rw [hasAllExact, hasAllExact, funext hexact]
      exact k.all_eq
  case holds => exact holds_congr hhas
  case filter =>
      apply (ofList_sound _).same_of_mem (ofList_sound _)
      intro t
      simp only [mem_ofList, List.mem_filter, hmem, isUnderAny_congr k]
  case filterExact =>
      apply (ofList_sound _).same_of_mem (ofList_sound _)
      intro t
      simp only [mem_ofList, List.mem_filter, hmem, isListedIn_iff, hmem']
  case append =>
      apply (ha.append hb).same_of_mem (ha'.append hb')
      intro t
      simp only [mem_append, hmem, hmem']
  case appendMatching =>
      apply (ha.addAll _).same_of_mem (ha'.addAll _)
      intro t
      simp only [mem_addAll, List.mem_filter, hmem, hmem', isUnderAny_congr l]
  case add =>
      intro t
      apply (ha.add t).same_of_mem (ha'.add t)
      intro u
      simp only [mem_add, hmem]
  case addLeaf =>
      intro t
      rw [addLeaf_fst, addLeaf_fst, hhas, hexact]
      refine ⟨rfl, (ha.addLeaf t).same_of_mem (ha'.addLeaf t) ?_⟩
      intro u
      simp only [mem_addLeaf, hmem, hhas]
  case remove =>
      intro t
      rw [remove, remove, removeFirst_fst, removeFirst_fst, h.any_eq]
      refine ⟨rfl, (ha.removeFirst _).same_of_mem (ha'.removeFirst _) ?_⟩
      intro u
      exact ha.mem_remove.trans ((and_congr_left' (hmem u)).trans ha'.mem_remove.symm)
  case removeAll =>
      have hkeep : ∀ t, (!b.tags.contains t) = !b'.tags.contains t := by
        intro t
        rw [k.contains_eq]
      rw [removeAll, removeAll, funext hkeep, restrict_fst, restrict_fst, h.all_eq]
      refine ⟨rfl, (ha.restrict _).same_of_mem (ha'.restrict _) ?_⟩
      intro u
      simp only [tags_restrict, List.mem_filter, hmem]
  case withParents =>
      intro hparents
      have hcache := mem_parents_congr ha ha' h
      have hparents' : ∀ p ∈ a'.parents, p.isValid := fun p hp => hparents p ((hcache p).mpr hp)
      apply (ha.withParents hparents).same_of_mem (ha'.withParents hparents')
      intro t
      simp only [mem_withParents, hmem, hcache]

end

/-- The caches of containers that programs make hold registered tags, so equal ones stay equal when their
parents are made explicit. -/
theorem Made.interchangeable (ha : Made a) (ha' : Made a') (hb : Made b) (hb' : Made b')
    (hw : Made w) (h : a.same a') (k : b.same b') (l : w.same w') :
    Interchangeable a b w a' b' w' ∧ a.withParents.same a'.withParents := by
  have hperm := ha.issued.sound.same_iff_perm.mp h
  have kperm := hb.issued.sound.same_iff_perm.mp k
  have lperm := hw.issued.sound.same_iff_perm.mp l
  have hall := Container.interchangeable ha.issued.sound ha'.issued.sound hperm kperm lperm
    hb.issued.sound hb'.issued.sound
  exact ⟨hall, hall.withParents fun p hp => (ha.issued.parents hp).isValid⟩

/-- Equality is that of the sets of explicit tags, so it is an equivalence, and equal containers are
interchangeable. -/
theorem same_congruence :
    (∀ a b : Container, a.Sound → b.Sound → (a.same b ↔ ∀ t, t ∈ a.tags ↔ t ∈ b.tags)) ∧
    (Equivalence fun a b : { c : Container // c.Sound } => (a.1.same b.1 : Prop)) ∧
    ∀ a b w a' b' w' : Container, a.Sound → b.Sound → w.Sound → a'.Sound → b'.Sound → w'.Sound →
      a.same a' → b.same b' → w.same w' → Interchangeable a b w a' b' w' := by
  refine ⟨fun a b ha hb => ha.same_iff hb, same_equivalence, ?_⟩
  intro a b w a' b' w' ha hb hw ha' hb' _ h k l
  have hperm := ha.same_iff_perm.mp h
  have kperm := hb.same_iff_perm.mp k
  have lperm := hw.same_iff_perm.mp l
  exact interchangeable ha ha' hperm kperm lperm hb hb'

/-- Two orders of the same tags, with caches in two orders as well. -/
theorem same_congruence_reordered :
    let a := ofList [⟨"A.B"⟩, ⟨"C.D"⟩, ⟨"E"⟩]
    let a' := ofList [⟨"E"⟩, ⟨"C.D"⟩, ⟨"A.B"⟩]
    let b := ofList [⟨"A"⟩, ⟨"E"⟩]
    let b' := ofList [⟨"E"⟩, ⟨"A"⟩]
    a ≠ a' ∧ a.parents ≠ a'.parents ∧ (a.same a' ↔ ∀ t, t ∈ a.tags ↔ t ∈ a'.tags) ∧
      Interchangeable a b a a' b' a' := by
  intro a a' b b'
  obtain ⟨hsets, _, hcongruence⟩ := same_congruence
  refine ⟨by decide +kernel, by decide +kernel, hsets a a' (ofList_sound _) (ofList_sound _), ?_⟩
  have hfirst : a.same a' := by decide +kernel
  have hsecond : b.same b' := by decide +kernel
  exact hcongruence a b a a' b' a' (ofList_sound _) (ofList_sound _) (ofList_sound _)
    (ofList_sound _) (ofList_sound _) (ofList_sound _) hfirst hsecond hfirst

end TagTree.Container
