import TagTree.Proofs.Container.Equality

/-!
# Containers of leaves

A leaf is refused if an explicit tag below it implies it already, and takes the
place of its own ancestors otherwise. What a container had it still has then,
and if none of its explicit tags was below another, none is afterwards. So tags
that are only ever added as leaves form an antichain.

A leaf is answered by cases: it is there already, something below it is there,
or it is new. In the last case its ancestors among the explicit tags go and the
leaf comes last, and what those ancestors implied is implied by the leaf,
because an ancestor of an ancestor is an ancestor.

`LeafLaws` states these cases for one leaf, with the answer and the exact list
of explicit tags. What many leaves preserve follows by induction on their list:
whatever was had before is had afterwards, and an antichain stays one. The
antichain starts from the empty container, where there is nothing to be below.
-/
namespace TagTree

namespace Tag

def IsBelow (a b : Tag) : Prop := a.isUnder b ∧ a ≠ b

instance (a b : Tag) : Decidable (a.IsBelow b) := inferInstanceAs (Decidable (_ ∧ _))

theorem isUnder_iff {a b : Tag} :
    a.isUnder b ↔ a.isValid ∧ b.isValid ∧ (a = b ∨ b ∈ a.parents) := by
  simp [isUnder, and_assoc]

theorem isUnder_trans {a b c : Tag} (hab : a.isUnder b) (hbc : b.isUnder c) : a.isUnder c := by
  obtain ⟨ha, _, hab⟩ := isUnder_iff.mp hab
  obtain ⟨_, hc, hbc⟩ := isUnder_iff.mp hbc
  refine isUnder_iff.mpr ⟨ha, hc, ?_⟩
  rcases hab with rfl | hab
  · exact hbc
  rcases hbc with rfl | hbc
  · exact .inr hab
  · exact .inr (parents_trans hbc hab)

theorem isBelow_iff {a b : Tag} : a.IsBelow b ↔ a.isValid ∧ b.isValid ∧ b ∈ a.parents := by
  rw [IsBelow, isUnder_iff]
  constructor
  · rintro ⟨⟨ha, hb, hab⟩, hne⟩
    exact ⟨ha, hb, hab.resolve_left hne⟩
  · rintro ⟨ha, hb, hab⟩
    refine ⟨⟨ha, hb, .inr hab⟩, ?_⟩
    rintro rfl
    exact Name.ne_of_mem_ancestors (mem_parents.mp hab) rfl

end Tag

namespace Container

/-- No explicit tag is below another. -/
def Antichain (c : Container) : Prop := ∀ a ∈ c.tags, ∀ b ∈ c.tags, ¬ a.IsBelow b

namespace Sound
variable {c : Container} (h : c.Sound) {t : Tag}
include h

theorem has_iff_isBelow (ht : t ∉ c.tags) : c.has t ↔ ∃ e ∈ c.tags, e.IsBelow t := by
  rw [h.has_eq, List.any_eq_true]
  constructor
  · rintro ⟨e, he, hunder⟩
    exact ⟨e, he, hunder, fun heq => ht (heq ▸ he)⟩
  · rintro ⟨e, he, hbelow⟩
    exact ⟨e, he, hbelow.1⟩

theorem addLeaf_of_mem (ht : t ∈ c.tags) : c.addLeaf t = (true, c) := by
  have hvalid : t.isValid = true := h.valid t ht
  have hexact : c.hasExact t = true := by simp [hasExact, hvalid, ht]
  simp [Container.addLeaf, hvalid, hexact]

/-- A new tag that nothing is below comes last, and its ancestors go. -/
theorem addLeaf_of_new (hvalid : t.isValid) (ht : t ∉ c.tags) (hnone : ∀ e ∈ c.tags, ¬ e.IsBelow t) :
    c.addLeaf t = (true, rebuilt ((c.tags.filter fun e => ¬ t.IsBelow e) ++ [t])) := by
  have hhas : ¬ c.has t := by
    rw [h.has_iff_isBelow ht]
    rintro ⟨e, he, hbelow⟩
    exact hnone e he hbelow
  have hfilter : (c.tags.filter fun e => !t.parents.contains e) =
      c.tags.filter fun e => ¬ t.IsBelow e := by
    refine List.filter_congr ?_
    intro e he
    simp [Tag.isBelow_iff, hvalid, h.valid e he]
  have hkept : (c.restrict fun e => !t.parents.contains e).2 =
      rebuilt (c.tags.filter fun e => ¬ t.IsBelow e) := by
    rw [(h.restrict _).eq_rebuilt, tags_restrict, hfilter]
  have hnew : t ∉ c.tags.filter fun e => ¬ t.IsBelow e := fun hmem => ht (List.mem_filter.mp hmem).1
  rw [addLeaf_eq, if_pos ⟨hvalid, hhas⟩, hkept, rebuilt_add hvalid hnew]

theorem addLeaf_refuses : (c.addLeaf t).1 = false ↔
    t.isValid = false ∨ t ∉ c.tags ∧ ∃ e ∈ c.tags, e.IsBelow t := by
  by_cases ht : t ∈ c.tags
  · simp [h.addLeaf_of_mem ht, h.valid t ht, ht]
  · rw [addLeaf_fst, ← h.has_iff_isBelow ht]
    cases t.isValid <;> simp [hasExact, ht]

theorem has_addLeaf {x : Tag} (hx : c.has x) : (c.addLeaf t).2.has x := by
  rw [h.has_eq, List.any_eq_true] at hx
  obtain ⟨e, he, hex⟩ := hx
  rw [(h.addLeaf t).has_eq, List.any_eq_true]
  by_cases hnew : t.isValid ∧ ¬ c.has t
  · by_cases hbelow : t.IsBelow e
    · exact ⟨t, mem_addLeaf.mpr (by simp [hnew]), Tag.isUnder_trans hbelow.1 hex⟩
    · have hparent : e ∉ t.parents := fun hmem =>
        hbelow (Tag.isBelow_iff.mpr ⟨hnew.1, h.valid e he, hmem⟩)
      exact ⟨e, mem_addLeaf.mpr (by simp [hnew, he, hparent]), hex⟩
  · exact ⟨e, mem_addLeaf.mpr (by rwa [if_neg hnew]), hex⟩

theorem addLeaf_antichain (hc : c.Antichain) : (c.addLeaf t).2.Antichain := by
  have hself : ¬ t.IsBelow t := fun hbelow => hbelow.2 rfl
  by_cases ht : t ∈ c.tags
  · rw [h.addLeaf_of_mem ht]
    exact hc
  by_cases hnew : t.isValid ∧ ∀ e ∈ c.tags, ¬ e.IsBelow t
  · -- Nothing that is left is above the leaf, and nothing was below it.
    have hleft : ∀ e, e ∈ (c.addLeaf t).2.tags ↔ e ∈ c.tags ∧ ¬ t.IsBelow e ∨ e = t := by
      intro e
      rw [h.addLeaf_of_new hnew.1 ht hnew.2]
      simp [rebuilt]
    intro a ha b hb
    rcases (hleft a).mp ha with ⟨hold, _⟩ | rfl
    · rcases (hleft b).mp hb with ⟨hold', _⟩ | rfl
      · exact hc a hold b hold'
      · exact hnew.2 a hold
    · rcases (hleft b).mp hb with ⟨_, habove⟩ | rfl
      · exact habove
      · exact hself
  · have hkept : (c.addLeaf t).2 = c := by
      rw [addLeaf_eq, if_neg]
      rintro ⟨hvalid, hhas⟩
      rw [h.has_iff_isBelow ht] at hhas
      exact hnew ⟨hvalid, fun e he hbelow => hhas ⟨e, he, hbelow⟩⟩
    rw [hkept]
    exact hc

end Sound

/-- What adding a leaf answers and what it leaves. -/
structure LeafLaws (c : Container) (t : Tag) : Prop where
  refused : (c.addLeaf t).1 = false ↔
    t.isValid = false ∨ t ∉ c.tags ∧ ∃ e ∈ c.tags, e.IsBelow t
  unchanged : (c.addLeaf t).1 = false → (c.addLeaf t).2 = c
  explicit : (c.addLeaf t).1 = true → t ∈ (c.addLeaf t).2.tags
  /-- A new leaf takes the place of its ancestors, and one that was explicit changes nothing. -/
  replaces : (c.addLeaf t).1 = true → (c.addLeaf t).2.tags =
    if t ∈ c.tags then c.tags else (c.tags.filter fun e => ¬ t.IsBelow e) ++ [t]
  sound : (c.addLeaf t).2.Sound
  covers : ∀ x, c.has x → (c.addLeaf t).2.has x
  antichain : c.Antichain → (c.addLeaf t).2.Antichain

theorem Sound.leafLaws {c : Container} (h : c.Sound) (t : Tag) : LeafLaws c t := by
  have haccepts : (c.addLeaf t).1 = true ↔
      t.isValid ∧ (t ∈ c.tags ∨ ∀ e ∈ c.tags, ¬ e.IsBelow t) := by
    rw [← Bool.not_eq_false, h.addLeaf_refuses]
    simp [Decidable.or_iff_not_imp_left]
  constructor
  case refused => exact h.addLeaf_refuses
  case unchanged =>
      rw [addLeaf_eq]
      split
      · nofun
      · exact fun _ => rfl
  case explicit =>
      intro hok
      obtain ⟨hvalid, hwhere⟩ := haccepts.mp hok
      by_cases ht : t ∈ c.tags
      · rwa [h.addLeaf_of_mem ht]
      · rw [h.addLeaf_of_new hvalid ht (hwhere.resolve_left ht)]
        exact List.mem_append_right _ (List.mem_singleton_self t)
  case replaces =>
      intro hok
      obtain ⟨hvalid, hwhere⟩ := haccepts.mp hok
      by_cases ht : t ∈ c.tags
      · rw [h.addLeaf_of_mem ht, if_pos ht]
      · rw [h.addLeaf_of_new hvalid ht (hwhere.resolve_left ht), if_neg ht]
        rfl
  case sound => exact h.addLeaf t
  case covers => exact fun _ => h.has_addLeaf
  case antichain => exact h.addLeaf_antichain

def addLeaves (c : Container) (ts : List Tag) : Container := ts.foldl (fun c t => (c.addLeaf t).2) c

theorem addLeaves_antichain {c : Container} (h : c.Sound) (hc : c.Antichain) (ts : List Tag) :
    (c.addLeaves ts).Sound ∧ (c.addLeaves ts).Antichain := by
  induction ts generalizing c with
  | nil => exact ⟨h, hc⟩
  | cons t ts ih => exact ih (h.addLeaf t) (h.addLeaf_antichain hc)

theorem has_addLeaves {c : Container} (h : c.Sound) (ts : List Tag) {x : Tag} (hx : c.has x) :
    (c.addLeaves ts).has x := by
  induction ts generalizing c with
  | nil => exact hx
  | cons t ts ih => exact ih (h.addLeaf t) (h.has_addLeaf hx)

/-- The laws of one leaf. However many leaves are added, nothing that was there is lost, and leaves
added to nothing form an antichain. -/
theorem leaves_lawful {c : Container} (h : c.Sound) (t : Tag) : LeafLaws c t ∧
    (∀ ts x, c.has x → (c.addLeaves ts).has x) ∧
    ∀ ts, (empty.addLeaves ts).Sound ∧ (empty.addLeaves ts).Antichain := by
  have hnothing : empty.Antichain := by simp [Antichain, empty]
  exact ⟨h.leafLaws t, fun ts _ => has_addLeaves h ts, addLeaves_antichain empty_sound hnothing⟩

/-- A leaf with two explicit ancestors, one that is implied, and a sequence of both kinds. -/
theorem leaves_lawful_mixed :
    let c := rebuilt [⟨"A"⟩, ⟨"B.C"⟩, ⟨"A.B"⟩]
    c.Sound ∧ c.addLeaf ⟨"A.B.C"⟩ = (true, ⟨[⟨"B.C"⟩, ⟨"A.B.C"⟩], [⟨"B"⟩, ⟨"A.B"⟩, ⟨"A"⟩]⟩) ∧
      c.addLeaf ⟨"B"⟩ = (false, c) ∧ LeafLaws c ⟨"A.B.C"⟩ ∧ LeafLaws c ⟨"B"⟩ ∧
      (empty.addLeaves [⟨"A"⟩, ⟨"A.B"⟩, ⟨"C"⟩, ⟨"A"⟩]).tags = [⟨"A.B"⟩, ⟨"C"⟩] ∧
      (empty.addLeaves [⟨"A"⟩, ⟨"A.B"⟩, ⟨"C"⟩, ⟨"A"⟩]).Antichain := by
  intro c
  have hc : c.Sound := rebuilt_sound (by decide) (by decide)
  obtain ⟨hlaws, _, hmany⟩ := leaves_lawful hc ⟨"A.B.C"⟩
  exact ⟨hc, by decide +kernel, by decide +kernel, hlaws, (leaves_lawful hc ⟨"B"⟩).1,
    by decide +kernel, (hmany _).2⟩

end Container
end TagTree
