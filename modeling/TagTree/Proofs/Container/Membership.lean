import TagTree.Proofs.Container.Equality
import TagTree.Proofs.Handle.Sound
import TagTree.Proofs.Query.Compiling

/-!
# Three ways to ask for membership

A container can be asked through its cache, through the ancestors that each of
its tags carries, and by a compiled query. The cache is what the tags carry put
together, so that a sound container answers the same in each way. What the
matching tags of another container add to it is also the same, one by one or all
at once.

Handles carry their ancestors along, and the question asked of them never looks
at a cache. `Carries` ties a container to a list of sound handles with the tags
of the container; its cache is then the list of what the handles carry, each
once in the order of first mention. Membership through the cache and through the
handles are two ways of asking every explicit tag.

A query for the tags of a container asks for each of them in turn, so it answers
what the container operations answer; up to 255 tags such a query can be made.
Adding the matching tags one by one and appending the filtered container have
the same explicit tags in the same order, and with sound containers that decides
the caches as well.
-/
namespace TagTree

namespace Container

theorem tags_addAll (c : Container) (ts : List Tag) :
    (c.addAll ts).tags = (ts.filter Tag.isValid).foldl addUnique c.tags := by
  induction ts generalizing c with
  | nil => rfl
  | cons t ts ih =>
      have hstep : c.addAll (t :: ts) = (c.add t).addAll ts := rfl
      rw [hstep, ih, add]
      cases hvalid : t.isValid with
      | false => simp [hvalid]
      | true =>
          rw [List.filter_cons_of_pos hvalid, List.foldl_cons, addUnique]
          cases hlisted : c.tags.contains t <;> rfl

namespace Sound
variable {a b : Container} (ha : a.Sound)
include ha

theorem eq_of_tags_eq (hb : b.Sound) (h : a.tags = b.tags) : a = b := by
  rw [ha.eq_rebuilt, hb.eq_rebuilt, h]

theorem addAll_eq_append (ts : List Tag) : a.addAll ts = a.append (ofList ts) := by
  apply (ha.addAll ts).eq_of_tags_eq (ha.append (ofList_sound ts))
  have hunion : (a.append (ofList ts)).tags = (ofList ts).tags.foldl addUnique a.tags := rfl
  have hlist : (ofList ts).tags = (ts.filter Tag.isValid).foldl addUnique [] := tags_addAll empty ts
  rw [hunion, hlist, foldl_addUnique_nil, tags_addAll]

theorem appendMatching_eq (source wanted : Container) :
    a.appendMatching source wanted = a.append (source.filter wanted) :=
  ha.addAll_eq_append _

end Sound

theorem any_any_eq (meets : Tag → Tag → Bool) (ts us : List Tag) :
    (us.any fun u => ts.any fun t => meets t u) = !(ts.filter fun t => us.any (meets t)).isEmpty := by
  rw [Bool.eq_iff_iff, Bool.not_eq_true', Bool.eq_false_iff, Ne, List.isEmpty_iff,
    List.filter_eq_nil_iff]
  simp only [List.any_eq_true]
  push Not
  constructor
  · rintro ⟨u, hu, t, ht, hmeets⟩
    exact ⟨t, ht, u, hu, hmeets⟩
  · rintro ⟨t, ht, u, hu, hmeets⟩
    exact ⟨u, hu, t, ht, hmeets⟩

namespace Sound
variable {a : Container} (ha : a.Sound)
include ha

theorem tags_filter (d : Container) : (a.filter d).tags = a.tags.filter (·.isUnderAny d) :=
  ha.tags_ofList_filter _

theorem hasExact_eq (x : Tag) : a.hasExact x = a.tags.any (·.isExactly x) := by
  rw [Bool.eq_iff_iff, hasExact, List.any_eq_true, Bool.and_eq_true, List.contains_iff_mem]
  constructor
  · rintro ⟨_, hmem⟩
    exact ⟨x, hmem, by simp [Tag.isExactly, ha.valid x hmem]⟩
  · rintro ⟨t, ht, hexact⟩
    obtain ⟨hvalid, rfl⟩ : t.isValid ∧ t = x := by simpa [Tag.isExactly] using hexact
    exact ⟨hvalid, ht⟩

theorem hasAll_iff (b : Container) : a.hasAll b ↔ ∀ t ∈ b.tags, ∃ e ∈ a.tags, e.isUnder t := by
  simp only [hasAll, ha.has_eq, List.all_eq_true, List.any_eq_true]

theorem hasAny_eq (b : Container) : a.hasAny b = !(a.filter b).isEmpty := by
  rw [hasAny, funext ha.has_eq, isEmpty, ha.tags_filter]
  exact any_any_eq Tag.isUnder a.tags b.tags

theorem hasAnyExact_eq (b : Container) : a.hasAnyExact b = !(a.filterExact b).isEmpty := by
  rw [hasAnyExact, funext ha.hasExact_eq, isEmpty, ha.tags_filterExact]
  exact any_any_eq Tag.isExactly a.tags b.tags

end Sound

/-- The explicit tags of `c` as handles. -/
structure Carries (c : Container) (hs : List Handle) : Prop where
  tags : hs.map (·.tag) = c.tags
  sound : ∀ h ∈ hs, h.Sound

namespace Carries
variable {a b : Container} {hs gs : List Handle} (h : a.Carries hs)
include h

theorem forall_mem_tags {p : Tag → Prop} : (∀ t ∈ a.tags, p t) ↔ ∀ x ∈ hs, p x.tag := by
  rw [← h.tags, List.forall_mem_map]

theorem exists_mem_tags {p : Tag → Prop} : (∃ t ∈ a.tags, p t) ↔ ∃ x ∈ hs, p x.tag := by
  simp [← h.tags]

theorem parents_eq (ha : a.Sound) :
    a.parents = ((hs.flatMap (·.parents)).map (·.tag)).foldl addUnique [] := by
  have hparents : a.tags.flatMap Tag.parents = (hs.flatMap (·.parents)).map (·.tag) := by
    rw [← h.tags, List.flatMap_map, List.map_flatMap]
    exact List.flatMap_congr fun x hx => ((h.sound x hx).map_tag_parents).symm
  rw [ha.cached, impliedParents_eq, hparents]

variable (k : b.Carries gs) (ha : a.Sound) (hb : b.Sound)
include k ha hb

/-- What the names say of two tags is what the first carries. -/
theorem isUnder_eq {x y : Handle} (hx : x ∈ hs) (hy : y ∈ gs) : x.tag.isUnder y.tag = x.isUnder y :=
  (h.sound x hx).tag_isUnder (h.forall_mem_tags.mp ha.valid x hx) (k.forall_mem_tags.mp hb.valid y hy)

theorem has_iff {y : Handle} (hy : y ∈ gs) : a.has y.tag ↔ ∃ x ∈ hs, x.isUnder y := by
  rw [ha.has_eq, List.any_eq_true, h.exists_mem_tags]
  apply exists_congr
  intro x
  apply and_congr_right
  intro hx
  rw [h.isUnder_eq k ha hb hx hy]

theorem hasAny_iff : a.hasAny b ↔ ∃ y ∈ gs, ∃ x ∈ hs, x.isUnder y := by
  rw [hasAny, List.any_eq_true, k.exists_mem_tags]
  exact exists_congr fun y => and_congr_right fun hy => h.has_iff k ha hb hy

theorem hasAll_iff : a.hasAll b ↔ ∀ y ∈ gs, ∃ x ∈ hs, x.isUnder y := by
  rw [hasAll, List.all_eq_true, k.forall_mem_tags]
  exact forall₂_congr fun y hy => h.has_iff k ha hb hy

theorem tags_filter_eq : (a.filter b).tags = (hs.filter fun x => gs.any x.isUnder).map (·.tag) := by
  rw [ha.tags_filter, ← h.tags, List.filter_map]
  congr 1
  apply List.filter_congr
  intro x hx
  rw [Function.comp_apply, Bool.eq_iff_iff, Tag.isUnderAny, List.any_eq_true, List.any_eq_true,
    k.exists_mem_tags]
  apply exists_congr
  intro y
  apply and_congr_right
  intro hy
  rw [h.isUnder_eq k ha hb hx hy]

end Carries

theorem holds_ofContainer {q : Quantifier} {b : Container} {query : Query}
    (h : Query.ofContainer q b = .ok query) (a : Container) :
    query.holds a = pure (q.test a.has b.tags) := by
  have hexpr := Query.expr?_of_build h
  obtain ⟨hvalue, hevents⟩ := query.holds_eq a
  rw [hexpr] at hvalue hevents
  cases hq : query.holds a
  rw [hq] at hvalue hevents
  subst hvalue hevents
  rfl

theorem ofContainer_ok {b : Container} (h : b.size ≤ 255) (q : Quantifier) :
    ∃ query, Query.ofContainer q b = .ok query := by
  apply (Query.build_ok_iff _ _).mpr
  apply (QueryStream.fits_iff _).mpr
  have hnames : (QueryExpr.tags q b.tags).nameCount ≤ b.size :=
    Finset.card_image_le.trans (List.toFinset_card_le b.tags)
  have hdepth : (QueryExpr.tags q b.tags).depth = 1 := by rw [QueryExpr.depth]
  exact ⟨by omega, h, hnames.trans h⟩

theorem ofContainer_holds {b : Container} (h : b.size ≤ 255) (q : Quantifier) (a : Container) :
    ∃ query, Query.ofContainer q b = .ok query ∧ query.holds a = pure (q.test a.has b.tags) := by
  obtain ⟨query, hquery⟩ := ofContainer_ok h q
  exact ⟨query, hquery, holds_ofContainer hquery a⟩

/-- What is asked of `a` and `b` in one way is what is asked in another. -/
structure Agreement (a b : Container) : Prop where
  hasAny : a.hasAny b = !(a.filter b).isEmpty
  hasAnyExact : a.hasAnyExact b = !(a.filterExact b).isEmpty
  hasAll : a.hasAll b ↔ ∀ t ∈ b.tags, ∃ e ∈ a.tags, e.isUnder t
  appendMatching : ∀ wanted, a.appendMatching b wanted = a.append (b.filter wanted)
  queryAny : b.size ≤ 255 →
    ∃ query, Query.ofContainer .any b = .ok query ∧ query.holds a = pure (a.hasAny b)
  queryAll : b.size ≤ 255 →
    ∃ query, Query.ofContainer .all b = .ok query ∧ query.holds a = pure (a.hasAll b)
  queryNone : b.size ≤ 255 →
    ∃ query, Query.ofContainer .none b = .ok query ∧ query.holds a = pure (!a.hasAny b)

/-- The same of the handles of `a` and `b`, which look at no cache. -/
structure HandleAgreement (a b : Container) (hs gs : List Handle) : Prop where
  parents : a.parents = ((hs.flatMap (·.parents)).map (·.tag)).foldl addUnique []
  hasAny : a.hasAny b ↔ ∃ y ∈ gs, ∃ x ∈ hs, x.isUnder y
  hasAll : a.hasAll b ↔ ∀ y ∈ gs, ∃ x ∈ hs, x.isUnder y
  filter : (a.filter b).tags = (hs.filter fun x => gs.any x.isUnder).map (·.tag)

/-- The cache, the tags, what their handles carry and compiled queries give the same answers, and
matching tags make the same container one by one as all at once. -/
theorem membership_agrees {a b : Container} (ha : a.Sound) (hb : b.Sound) : Agreement a b ∧
    ∀ hs gs, a.Carries hs → b.Carries gs → HandleAgreement a b hs gs := by
  constructor
  · constructor
    case hasAny => exact ha.hasAny_eq b
    case hasAnyExact => exact ha.hasAnyExact_eq b
    case hasAll => exact ha.hasAll_iff b
    case appendMatching => exact ha.appendMatching_eq b
    case queryAny => exact fun h => ofContainer_holds h .any a
    case queryAll => exact fun h => ofContainer_holds h .all a
    case queryNone => exact fun h => ofContainer_holds h .none a
  · intro hs gs h k
    exact ⟨h.parents_eq ha, h.hasAny_iff k ha hb, h.hasAll_iff k ha hb, h.tags_filter_eq k ha hb⟩

/-- A tag below a wanted one, one that is wanted itself, and one that is neither. -/
theorem membership_agrees_mixed :
    let a := ofList [⟨"A.B.C"⟩, ⟨"D"⟩, ⟨"E"⟩]
    let b := ofList [⟨"A.B"⟩, ⟨"D"⟩]
    let ab : Handle := ⟨"A.B", [⟨"A", []⟩]⟩
    let hs : List Handle := [⟨"A.B.C", [ab, ⟨"A", []⟩]⟩, ⟨"D", []⟩, ⟨"E", []⟩]
    a.filter b = ofList [⟨"A.B.C"⟩, ⟨"D"⟩] ∧ a.hasAny b = true ∧ Agreement a b ∧
      HandleAgreement a b hs [ab, ⟨"D", []⟩] := by
  intro a b ab hs
  have ha : a.Sound := ofList_sound _
  have hb : b.Sound := ofList_sound _
  obtain ⟨hagrees, hhandles⟩ := membership_agrees ha hb
  have hroot : ∀ n : String, Name.ancestors n = [] → Handle.Sound ⟨n, []⟩ :=
    fun n hn => .mk hn.symm nofun
  have hA : Handle.Sound ⟨"A", []⟩ := hroot "A" (by decide +kernel)
  have hD : Handle.Sound ⟨"D", []⟩ := hroot "D" (by decide +kernel)
  have hE : Handle.Sound ⟨"E", []⟩ := hroot "E" (by decide +kernel)
  have hab : ab.Sound := .mk (by decide +kernel) (by simpa [ab] using hA)
  have habc : Handle.Sound ⟨"A.B.C", [ab, ⟨"A", []⟩]⟩ :=
    .mk (by decide +kernel) (by simpa using ⟨hab, hA⟩)
  refine ⟨by decide +kernel, by decide +kernel, hagrees, hhandles _ _ ⟨?_, ?_⟩ ⟨?_, ?_⟩⟩
  · decide +kernel
  · simpa [hs] using ⟨habc, hD, hE⟩
  · decide +kernel
  · simpa using ⟨hab, hD⟩

end Container
end TagTree
