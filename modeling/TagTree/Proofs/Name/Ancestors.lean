import TagTree.Proofs.Name.Segments

/-!
# Ancestors of a name

The ancestors of a name are what stands in front of its dots, so an ancestor of
an ancestor is an ancestor. The ancestors of an accepted name are accepted as
well, with one exception: an ancestor may be the reserved name, since acceptance
compares only the full name with it.

`mem_ancestors` says what an ancestor is in characters: a text such that the
name goes on with a dot. Ancestors of ancestors come from putting two such
splits together. A dotted prefix, which may be the name itself, is an ancestor
or the name, and this is how the two notions are turned into one another.

Acceptance is rewritten as a property of segments and characters. `Legible`
leaves out the comparison with the reserved word, so it is inherited by dotted
prefixes and kept when a legible segment is appended; acceptance is then
legibility and not being the reserved name.
-/
namespace TagTree.Name

theorem mem_stems {x cs : List Char} : x ∈ stems cs ↔ ∃ rest, cs = x ++ '.' :: rest := by
  induction cs generalizing x with
  | nil => simp [stems]
  | cons c cs ih =>
      have hdeeper : x ∈ (stems cs).map (c :: ·) ↔ ∃ y rest, cs = y ++ '.' :: rest ∧ c :: y = x := by
        simp only [List.mem_map, ih]
        constructor
        · rintro ⟨y, ⟨rest, hrest⟩, hy⟩
          exact ⟨y, rest, hrest, hy⟩
        · rintro ⟨y, rest, hrest, hy⟩
          exact ⟨y, ⟨rest, hrest⟩, hy⟩
      have hcons : x ∈ stems (c :: cs) ↔
          (c = '.' ∧ x = []) ∨ x ∈ (stems cs).map (c :: ·) := by
        rw [stems]
        split <;> rename_i hc <;> simp [hc]
      rw [hcons, hdeeper]
      constructor
      · rintro (⟨rfl, rfl⟩ | ⟨y, rest, rfl, rfl⟩)
        · exact ⟨cs, rfl⟩
        · exact ⟨rest, rfl⟩
      · rintro ⟨rest, hrest⟩
        cases x with
        | nil => exact .inl ⟨(List.cons.inj hrest).1, rfl⟩
        | cons d y =>
            obtain ⟨rfl, hcs⟩ := List.cons.inj hrest
            exact .inr ⟨y, rest, hcs, rfl⟩

theorem mem_ancestors {m name : String} :
    m ∈ ancestors name ↔ ∃ rest, name = m ++ "." ++ rest := by
  have hstem : m ∈ ancestors name ↔ m.toList ∈ stems name.toList := by
    rw [ancestors, List.mem_reverse, List.mem_map]
    constructor
    · rintro ⟨x, hx, rfl⟩
      simpa using hx
    · intro hm
      exact ⟨m.toList, hm, String.ofList_toList⟩
  rw [hstem, mem_stems]
  constructor
  · rintro ⟨rest, hrest⟩
    exact ⟨String.ofList rest, String.toList_inj.mp (by simp [hrest])⟩
  · rintro ⟨rest, rfl⟩
    exact ⟨rest.toList, by simp⟩

theorem ne_of_mem_ancestors {m name : String} (h : m ∈ ancestors name) : m ≠ name := by
  rintro rfl
  obtain ⟨rest, hrest⟩ := mem_ancestors.mp h
  have hlength := congrArg String.length hrest
  have hdot : ".".length = 1 := rfl
  rw [String.length_append, String.length_append, hdot] at hlength
  omega

theorem ancestors_trans {l m name : String} (hl : l ∈ ancestors m) (hm : m ∈ ancestors name) :
    l ∈ ancestors name := by
  obtain ⟨inner, rfl⟩ := mem_ancestors.mp hl
  obtain ⟨outer, rfl⟩ := mem_ancestors.mp hm
  exact mem_ancestors.mpr ⟨inner ++ "." ++ outer, by simp only [String.append_assoc]⟩

theorem Proper.of_ancestor {m name : String} (h : Proper name) (hm : m ∈ ancestors name) :
    Proper m := by
  obtain ⟨rest, rfl⟩ := mem_ancestors.mp hm
  intro s hs
  apply h
  rw [segments_append]
  exact List.mem_append_left _ hs

theorem dottedPrefix_iff_ancestor {m name : String} :
    DottedPrefix m name ↔ m ≠ "" ∧ (m = name ∨ m ∈ ancestors name) := by
  rw [DottedPrefix, mem_ancestors]

theorem DottedPrefix.of_ancestor {l m name : String} (h : DottedPrefix m name)
    (hl : l ∈ ancestors m) (hne : l ≠ "") : DottedPrefix l name := by
  rw [dottedPrefix_iff_ancestor] at h ⊢
  rcases h.2 with rfl | hm
  · exact ⟨hne, .inr hl⟩
  · exact ⟨hne, .inr (ancestors_trans hl hm)⟩

theorem proper_iff {name : String} : Proper name ↔ [] ∉ splitDots name.toList := by
  constructor
  · intro h hmem
    exact h "" (List.mem_map.mpr ⟨[], hmem, rfl⟩) rfl
  · intro h s hs he
    obtain ⟨x, hx, rfl⟩ := List.mem_map.mp hs
    have hnil : x = [] := by simpa using he
    exact h (hnil ▸ hx)

theorem Proper.no_dot_at_end {name : String} (h : Proper name) :
    name.toList.head? ≠ some '.' ∧ name.toList.getLast? ≠ some '.' := by
  rw [proper_iff] at h
  constructor
  · intro hhead
    obtain ⟨cs, hcs⟩ := List.head?_eq_some_iff.mp hhead
    apply h
    simp [hcs, splitDots]
  · intro hlast
    obtain ⟨cs, hcs⟩ := List.getLast?_eq_some_iff.mp hlast
    apply h
    rw [hcs, splitDots_eq, List.splitOn_append_cons_self]
    simp

/-- What makes a name acceptable: no empty segment, not the reserved name, and plain characters. -/
theorem valid_iff {name : String} : Valid name ↔ Proper name ∧ name ≠ none ∧
    ∀ c ∈ name.toList, isBlank c = false ∧ isDelimiter c = false := by
  have hfind : (name.toList.find? fun c => isBlank c || isDelimiter c) = Option.none ↔
      ∀ c ∈ name.toList, isBlank c = false ∧ isDelimiter c = false := by
    simp
  constructor
  · intro h
    refine ⟨h.proper, ?_, ?_⟩
    · rintro rfl
      exact absurd h (by decide)
    · rw [← hfind]
      unfold Valid fault? at h
      dsimp only at h
      split at h
      · cases h
      split at h
      · cases h
      split at h
      · cases h
      split at h
      · cases h
      split at h
      · cases h
      · assumption
  · rintro ⟨hproper, hnone, hplain⟩
    have hne : name.toList.isEmpty = false := by simpa using hproper.ne_empty
    have hend := hproper.no_dot_at_end
    have hseg : (splitDots name.toList).any List.isEmpty = false := by
      rw [List.any_eq_false]
      intro x hx hempty
      exact proper_iff.mp hproper (List.isEmpty_iff.mp hempty ▸ hx)
    unfold Valid fault?
    dsimp only
    rw [if_neg (by simp [hne]), if_neg (by simp [hend]), if_neg (by simp [hseg]), if_neg hnone,
      hfind.mpr hplain]

/-- A name that would be accepted if it were not the reserved one. -/
def Legible (name : String) : Prop :=
  Proper name ∧ ∀ c ∈ name.toList, isBlank c = false ∧ isDelimiter c = false

theorem valid_iff_legible {name : String} : Valid name ↔ Legible name ∧ name ≠ none := by
  rw [valid_iff, Legible, and_assoc, and_comm (a := name ≠ none)]

theorem Legible.of_plain {s : String} (h : Plain s)
    (hs : ∀ c ∈ s.toList, isBlank c = false ∧ isDelimiter c = false) : Legible s := by
  refine ⟨?_, hs⟩
  intro x hx
  rw [segments_of_dotless h.2, List.mem_singleton] at hx
  exact hx ▸ h.1

theorem Legible.child {stem s : String} (hstem : stem = "" ∨ Legible stem) (hs : Legible s)
    (hdot : '.' ∉ s.toList) : Legible (child stem s) := by
  rcases hstem with rfl | hstem
  · exact hs
  have hne := hstem.1.ne_empty
  constructor
  · intro x hx
    rw [segments_child hne hdot, List.mem_append, List.mem_singleton] at hx
    rcases hx with hx | rfl
    · exact hstem.1 x hx
    · exact hs.1.ne_empty
  · intro c hc
    rw [child_of_ne hne] at hc
    simp only [String.toList_append, List.mem_append] at hc
    rcases hc with (hc | hc) | hc
    · exact hstem.2 c hc
    · rw [List.mem_singleton.mp hc]
      decide
    · exact hs.2 c hc

/-- A dotted prefix of an accepted name is accepted, if it is not the reserved name. -/
theorem Valid.of_dottedPrefix {m name : String} (h : Valid name) (hm : DottedPrefix m name)
    (hnone : m ≠ none) : Valid m := by
  rcases (dottedPrefix_iff_ancestor.mp hm).2 with rfl | hanc
  · exact h
  · obtain ⟨hproper, _, hplain⟩ := valid_iff.mp h
    refine valid_iff.mpr ⟨hproper.of_ancestor hanc, hnone, ?_⟩
    obtain ⟨rest, rfl⟩ := mem_ancestors.mp hanc
    intro c hc
    apply hplain
    rw [String.append_assoc, String.toList_append]
    exact List.mem_append_left _ hc

end TagTree.Name
