import TagTree.Proofs.Container.Made
import TagTree.Proofs.Text.Recognizing

/-!
# Reading what was written

Names are written in quotes and without escapes. That is enough, since neither a
quote nor a backslash is accepted in a name and the ancestors of a name have no
other characters. A written container is therefore read as the names of its tags
and a written tag as its own name, in any registry; what these stand for there
is up to the lookup.

A container is a row of quoted names, and its grammar derivation is written down
directly from the list of tags; that it is read follows from the completeness of
the readers. The tag that stands for no tag is written as the reserved word and
read back as no tag.

What comes back depends on the registry of the reader. Where the lookup of every
name gives the tag of that name, the container comes back with its tags in their
order. Redirects change it, and a name that is not registered drops out; a
registered tag with the reserved name is never looked up and drops out as well.
-/
namespace TagTree

theorem quotable_none : TextForm.Quotable Name.none := by decide

theorem Registry.Consistent.quotable_of_contains {r : Registry} (h : r.Consistent) {name : String}
    (hc : r.contains name) : TextForm.Quotable name := by
  by_cases hnone : name = Name.none
  · rw [hnone]
    exact quotable_none
  · intro c hmem
    obtain ⟨_, hdelimiter⟩ := (Name.valid_iff.mp (h.valid_of_contains hc hnone)).2.2 c hmem
    constructor
    · rintro rfl
      exact absurd hdelimiter (by decide)
    · rintro rfl
      exact absurd hdelimiter (by decide)

theorem Tag.Registered.quotable {t : Tag} (h : t.Registered) : TextForm.Quotable t.name := by
  obtain ⟨r, hr, hc⟩ := h
  exact hr.consistent.quotable_of_contains hc

theorem Tag.IsHandle.quotable_display {t : Tag} (h : t.IsHandle) :
    TextForm.Quotable t.display := by
  rcases h with rfl | h
  · exact quotable_none
  · rw [Tag.display, if_pos h.isValid]
    exact h.quotable

namespace TextForm

/-- Names in quotes, separated by commas. -/
def quotedList (names : List String) : String :=
  String.intercalate "," (names.map fun n => "\"" ++ n ++ "\"")

theorem quotedList_singleton (n : String) (cs : List Char) :
    (quotedList [n]).toList ++ cs = '"' :: (n.toList ++ '"' :: cs) := by
  simp [quotedList]

theorem quotedList_cons (n : String) {names : List String} (hne : names ≠ []) (cs : List Char) :
    (quotedList (n :: names)).toList ++ cs =
      '"' :: (n.toList ++ '"' :: ',' :: ((quotedList names).toList ++ cs)) := by
  rw [quotedList, List.map_cons, String.intercalate_cons_of_ne_nil (by simpa using hne)]
  simp [quotedList]

theorem tokens_of_quotedList {names : List String} (hq : ∀ n ∈ names, Quotable n)
    (rest : List Char) :
    ∃ ts, ListForm names ts ∧ Tokens ts ((quotedList names).toList ++ rest) rest := by
  induction names with
  | nil => exact ⟨[], .nil, .nil rest⟩
  | cons n names ih =>
      obtain ⟨hn, hnames⟩ := List.forall_mem_cons.mp hq
      have hitem : ItemForm n [.quoted n] := .name (.quoted n)
      by_cases hne : names = []
      · rw [hne, quotedList_singleton]
        exact ⟨_, .last hitem, (hn.written rest).tokens (.nil rest)⟩
      · obtain ⟨ts, hform, htokens⟩ := ih hnames
        rw [quotedList_cons n hne]
        exact ⟨_, .cons hitem hform, (hn.written _).tokens (tokens_mark (by decide) htokens)⟩

theorem containerText_toText {c : Container} (hq : ∀ t ∈ c.tags, Quotable t.name) :
    ContainerText (c.tags.map (·.name)) c.toText.toList := by
  have hnames : ∀ n ∈ c.tags.map (·.name), Quotable n := by
    intro n hn
    obtain ⟨t, ht, rfl⟩ := List.mem_map.mp hn
    exact hq t ht
  have htext : c.toText.toList = '(' :: (tagsKey.toList ++ '=' :: '(' ::
      ((quotedList (c.tags.map (·.name))).toList ++ ')' :: ')' :: [])) := by
    simp [Container.toText, quotedList, tagsKey, Function.comp_def]
  obtain ⟨ts, hform, htokens⟩ := tokens_of_quotedList hnames (')' :: ')' :: [])
  have hclose : Tokens [.mark ')', .mark ')'] (')' :: ')' :: []) [] :=
    tokens_mark (by decide) (tokens_mark (by decide) (.nil []))
  refine ⟨ts, [], hform, ?_, nofun⟩
  rw [htext]
  exact tokens_mark (by decide) (tokens_key (by decide) (by decide)
    (tokens_mark (by decide) (htokens.append hclose)))

theorem containerNames_toText {c : Container} (hq : ∀ t ∈ c.tags, Quotable t.name) :
    containerNames c.toText = .ok (c.tags.map (·.name)) :=
  containerNames_eq_ok.mpr (containerText_toText hq)

theorem itemText_toText {t : Tag} (hq : Quotable t.display) :
    ItemText t.display t.toText.toList := by
  have htext : t.toText.toList =
      '(' :: (tagNameKey.toList ++ '=' :: '"' :: (t.display.toList ++ '"' :: ')' :: [])) := by
    simp [Tag.toText, tagNameKey]
  have hname := (hq.written (')' :: [])).tokens (tokens_mark (by decide) (.nil []))
  refine ⟨_, [], .tag (.quoted t.display), ?_, nofun⟩
  rw [htext]
  exact tokens_mark (by decide) (tokens_key (by decide) (by decide) hname)

theorem tagName_toText {t : Tag} (hq : Quotable t.display) : tagName t.toText = .ok (some t.display) :=
  tagName_of_itemText (itemText_toText hq)

end TextForm

namespace Registry

/-- What a registry finds for a written tag. A name that resolves to nothing is an error, unless it
stands for no tag. -/
def found (r : Registry) (t : Tag) : Except TextError Tag :=
  let tag := (r.request t.name).value.2
  if tag.isValid ∨ t = .invalid ∨ t.name = Name.none then .ok tag else .error (.unknownTag t.name)

theorem tagOfText_toText {t : Tag} (h : t.IsHandle) (r : Registry) :
    (r.tagOfText t.toText).value = r.found t := by
  rw [tagOfText, TextForm.tagName_toText h.quotable_display, found, request_eq_lookup]
  dsimp only
  rcases h with rfl | h
  · rw [if_pos (.inr rfl), if_pos (.inr (.inl rfl)), Tag.invalid, lookup_of_empty]
    rfl
  · have hvalid := h.isValid
    have hne : t.name ≠ "" := bne_iff_ne.mp hvalid
    have hinvalid : t ≠ .invalid := fun he => hne (congrArg Tag.name he)
    rw [Tag.display, if_pos hvalid]
    by_cases hnone : t.name = Name.none
    · rw [if_pos (.inr hnone), if_pos (.inr (.inr hnone)), hnone, lookup_none]
      rfl
    · rw [if_neg (by simp [hne, hnone]), Logged.value_bind]
      simp only [hinvalid, hnone, or_false]
      rfl

/-- A written container of registered tags is read, in any registry, as what the lookup gives for its
names, and as itself where the lookup gives every name its tag. A written tag is read as what the
lookup gives for its name. -/
theorem containerOfText_toText (r : Registry) {c : Container} (hc : c.Issued) :
    (r.containerOfText c.toText).value =
      .ok (.rebuilt ((c.tags.map fun t => (r.request t.name).value.2).filter Tag.isValid).eraseDups) ∧
    ((∀ t ∈ c.tags, (r.request t.name).value.2 = t) → (r.containerOfText c.toText).value = .ok c) ∧
    ∀ t : Tag, t.IsHandle → (r.tagOfText t.toText).value = r.found t := by
  have hread : (r.containerOfText c.toText).value =
      .ok (.ofList (c.tags.map fun t => (r.request t.name).value.2)) := by
    rw [containerOfText, TextForm.containerNames_toText fun t ht => (hc.registered t ht).quotable]
    dsimp only
    rw [Logged.value_bind, containerOfNames, containerOfNames_go, List.map_map]
    simp only [request_eq_lookup]
    rfl
  refine ⟨?_, ?_, fun t ht => tagOfText_toText ht r⟩
  · rw [hread, Container.ofList_eq]
  · intro hown
    rw [hread, List.map_congr_left hown, List.map_id',
      Container.ofList_of_nodup hc.sound.valid hc.sound.nodup, ← hc.sound.eq_rebuilt]

/-- The reader has no tag of the old name and redirects it, and it has no tag of the reserved name. The
maker reads back a container without such a tag as it was. -/
theorem containerOfText_toText_redirected :
    let maker := (empty {}).run
      [.addNatives [⟨"None.X", ""⟩, ⟨"Effect.Fire", ""⟩, ⟨"Old", ""⟩], .finalize]
    let reader := (empty {}).run [.addNative ⟨"Effect.Fire", ""⟩, .addRedirect ⟨"Old", "Effect.Fire"⟩]
    let c := Container.ofList [⟨"Old"⟩, ⟨"None"⟩, ⟨"Effect.Fire"⟩, ⟨"Effect"⟩]
    let d := Container.ofList [⟨"Old"⟩, ⟨"Effect.Fire"⟩]
    (reader.containerOfText c.toText).value = .ok ⟨[⟨"Effect.Fire"⟩, ⟨"Effect"⟩], [⟨"Effect"⟩]⟩ ∧
      (maker.containerOfText d.toText).value = .ok d ∧
      (reader.tagOfText (Tag.toText ⟨"Old"⟩)).value = .ok ⟨"Effect.Fire"⟩ ∧
      (reader.tagOfText (Tag.toText ⟨"None.X"⟩)).value = .error (.unknownTag "None.X") := by
  intro maker reader c d
  have hmaker : maker.Reachable := Reachable.run (.origin (.empty _)) _
  have hregistered : ∀ t : Tag, maker.contains t.name → t.Registered :=
    fun t ht => ⟨maker, hmaker, ht⟩
  have hc : c.Issued := by
    refine Container.empty_issued.addAll fun t ht => .inr (hregistered t ?_)
    revert t
    decide +kernel
  have hd : d.Issued := by
    refine Container.empty_issued.addAll fun t ht => .inr (hregistered t ?_)
    revert t
    decide +kernel
  have hread := containerOfText_toText reader hc
  refine ⟨hread.1.trans ?_, (containerOfText_toText maker hd).2.1 ?_, ?_, ?_⟩
  · decide +kernel
  · decide +kernel
  · exact (hread.2.2 ⟨"Old"⟩ (.inr (hregistered _ (by decide +kernel)))).trans (by decide +kernel)
  · exact (hread.2.2 ⟨"None.X"⟩ (.inr (hregistered _ (by decide +kernel)))).trans (by decide +kernel)

end Registry
end TagTree
