import TagTree.Name

/-!
# Names and paths

A name without empty segments is the same thing as a path of plain segments:
`below` puts a path together under a stem and `segments` takes a name apart. The
dotted prefixes of a name are then the names of the prefixes of its path.

`Plain` is what a segment may be, a text that is not empty and has no dot;
`Proper` is a name all of whose segments are plain, and accepted names are
proper. On proper names `segments` and `below` are inverse to one another, and
`path` makes this uniform by giving the root, whose name is empty, the empty
path.

The map from names to paths is injective, and a child's path is its parent's
path with one segment more, so facts about trees of names are proved about lists
of segments. The trail of a path lists the names on the way along it, and these
are the dotted prefixes beyond the stem. The first characters of a name up to
the length of a prefix are that prefix, which is how a walk along a name finds
the names of its nodes.
-/
namespace TagTree.Name

theorem splitDots_eq (cs : List Char) : splitDots cs = cs.splitOn '.' := by
  induction cs with
  | nil => rfl
  | cons c cs ih =>
      rw [splitDots, List.splitOn_cons_eq_if_modifyHead, ih]
      cases h : cs.splitOn '.' with
      | nil => exact absurd h (List.splitOn_ne_nil _ _)
      | cons s rest => by_cases hc : c = '.' <;> simp [hc]

theorem segments_eq (name : String) :
    segments name = (name.toList.splitOn '.').map String.ofList := by
  rw [segments, splitDots_eq]

theorem segments_ne_nil (name : String) : segments name ≠ [] := by
  rw [segments_eq]
  simp [List.splitOn_ne_nil]

theorem segments_append (m rest : String) :
    segments (m ++ "." ++ rest) = segments m ++ segments rest := by
  have h : (m ++ "." ++ rest).toList = m.toList ++ '.' :: rest.toList := by simp
  rw [segments_eq, h, List.splitOn_append_cons_self, List.map_append, ← segments_eq, ← segments_eq]

theorem segments_of_dotless {s : String} (h : '.' ∉ s.toList) : segments s = [s] := by
  rw [segments_eq, List.splitOn_eq_singleton h]
  simp

theorem intercalate_segments (name : String) : String.intercalate "." (segments name) = name := by
  rw [← String.toList_inj, String.toList_intercalate, segments_eq, List.map_map]
  have h : String.toList ∘ String.ofList = id := by
    funext cs
    simp
  rw [h, List.map_id]
  exact List.intercalate_splitOn ..

theorem dotless_of_mem_segments {name s : String} (h : s ∈ segments name) : '.' ∉ s.toList := by
  suffices hs : ∀ cs : List Char, ∀ x ∈ splitDots cs, '.' ∉ x by
    obtain ⟨x, hx, rfl⟩ := List.mem_map.mp h
    simpa using hs name.toList x hx
  intro cs
  induction cs with
  | nil => simp [splitDots]
  | cons c cs ih =>
      intro x hx
      rw [splitDots] at hx
      split at hx
      · rcases List.mem_cons.mp hx with rfl | hx
        · simp
        · exact ih x hx
      · rename_i hc
        split at hx
        · rw [List.mem_singleton.mp hx]
          simpa using Ne.symm hc
        · rename_i s rest hcs
          rw [hcs] at ih
          rcases List.mem_cons.mp hx with rfl | hx
          · have hs := ih s List.mem_cons_self
            simp [hs, Ne.symm hc]
          · exact ih x (List.mem_cons_of_mem _ hx)

/-- What can stand between two dots. -/
def Plain (segment : String) : Prop := segment ≠ "" ∧ '.' ∉ segment.toList

/-- A name without empty segments. Every accepted name is one, and so are its ancestors. -/
def Proper (name : String) : Prop := ∀ s ∈ segments name, s ≠ ""

theorem Proper.plain {name s : String} (h : Proper name) (hs : s ∈ segments name) : Plain s :=
  ⟨h s hs, dotless_of_mem_segments hs⟩

theorem Proper.ne_empty {name : String} (h : Proper name) : name ≠ "" := by
  rintro rfl
  exact h "" (by simp [segments, splitDots]) rfl

theorem Valid.ne_empty {name : String} (h : Valid name) : name ≠ "" := by
  rintro rfl
  simp [Valid, fault?] at h

theorem Valid.proper {name : String} (h : Valid name) : Proper name := by
  intro s hs he
  obtain ⟨x, hx, rfl⟩ := List.mem_map.mp hs
  have hx' : x = [] := by simpa using he
  have hany : (splitDots name.toList).any List.isEmpty = true :=
    List.any_eq_true.mpr ⟨x, hx, by simp [hx']⟩
  unfold Valid fault? at h
  simp only [hany, if_true] at h
  split at h
  · simp at h
  · split at h <;> simp at h

def below (stem : String) (path : List String) : String := path.foldl child stem

@[simp] theorem below_nil (stem : String) : below stem [] = stem := rfl

@[simp] theorem below_cons (stem s : String) (path : List String) :
    below stem (s :: path) = below (child stem s) path := rfl

theorem below_append (stem : String) (p q : List String) :
    below stem (p ++ q) = below (below stem p) q := List.foldl_append ..

theorem child_root (s : String) : child "" s = s := rfl

theorem child_of_ne {stem : String} (h : stem ≠ "") (s : String) :
    child stem s = stem ++ "." ++ s := if_neg h

theorem child_ne_empty (stem : String) {s : String} (h : s ≠ "") : child stem s ≠ "" := by
  by_cases hs : stem = ""
  · rwa [hs, child_root]
  · rw [child_of_ne hs]
    simp

theorem length_child (stem s : String) :
    (child stem s).length = stem.length + if stem = "" then s.length else s.length + 1 := by
  by_cases h : stem = ""
  · simp [h, child_root]
  · have hdot : ".".length = 1 := rfl
    rw [child_of_ne h, if_neg h, String.length_append, String.length_append, hdot]
    omega

theorem below_ne_empty {p : List String} (hp : ∀ s ∈ p, s ≠ "") {stem : String}
    (h : stem ≠ "" ∨ p ≠ []) : below stem p ≠ "" := by
  induction p generalizing stem with
  | nil => simpa using h
  | cons s p ih =>
      have hs := child_ne_empty stem (hp s List.mem_cons_self)
      exact ih (fun x hx => hp x (List.mem_cons_of_mem _ hx)) (.inl hs)

/-- Under a stem other than the root, a path adds a dot and its segments with dots between them. -/
theorem below_eq {stem : String} (h : stem ≠ "") {p : List String} (hp : p ≠ []) :
    below stem p = stem ++ "." ++ String.intercalate "." p := by
  induction p generalizing stem with
  | nil => exact absurd rfl hp
  | cons s p ih =>
      rw [below_cons, child_of_ne h]
      by_cases hq : p = []
      · simp [hq, String.intercalate_singleton]
      · rw [ih (by simp) hq, String.intercalate_cons_of_ne_nil hq]
        simp only [String.append_assoc]

theorem below_root {p : List String} (hp : ∀ s ∈ p, s ≠ "") :
    below "" p = String.intercalate "." p := by
  cases p with
  | nil => rfl
  | cons s p =>
      rw [below_cons, child_root]
      by_cases hq : p = []
      · simp [hq, String.intercalate_singleton]
      · rw [below_eq (hp s List.mem_cons_self) hq, String.intercalate_cons_of_ne_nil hq]

theorem below_segments {name : String} (h : Proper name) : below "" (segments name) = name := by
  rw [below_root h, intercalate_segments]

theorem segments_child {stem s : String} (h : stem ≠ "") (hs : '.' ∉ s.toList) :
    segments (child stem s) = segments stem ++ [s] := by
  rw [child_of_ne h, segments_append, segments_of_dotless hs]

theorem prefix_below (stem : String) (q : List String) : stem.toList <+: (below stem q).toList := by
  induction q generalizing stem with
  | nil => exact List.prefix_refl _
  | cons s q ih =>
      refine .trans ?_ (ih (child stem s))
      by_cases h : stem = ""
      · simp [h]
      · simp [child_of_ne h, List.prefix_append]

theorem upTo_below (stem : String) (q : List String) : upTo stem.length (below stem q) = stem := by
  have h := List.prefix_iff_eq_take.mp (prefix_below stem q)
  rw [String.length_toList] at h
  rw [upTo, ← h, String.ofList_toList]

/-- The segments from the root down; the root has none. -/
def path (name : String) : List String := if name = "" then [] else segments name

@[simp] theorem path_root : path "" = [] := rfl

theorem path_of_ne {name : String} (h : name ≠ "") : path name = segments name := if_neg h

theorem path_inj {m n : String} : path m = path n ↔ m = n := by
  constructor
  · intro h
    have hj : ∀ name, String.intercalate "." (path name) = name := by
      intro name
      by_cases hn : name = ""
      · rw [hn]
        rfl
      · rw [path_of_ne hn, intercalate_segments]
    rw [← hj m, h, hj n]
  · intro h
    rw [h]

theorem eq_of_path_prefix {m n : String} (h : path m <+: path n) (k : path n <+: path m) : m = n :=
  path_inj.mp (h.eq_of_length_le k.length_le)

theorem path_child (stem : String) {s : String} (h : Plain s) :
    path (child stem s) = path stem ++ [s] := by
  rw [path_of_ne (child_ne_empty stem h.1)]
  by_cases hs : stem = ""
  · rw [hs, child_root, segments_of_dotless h.2, path_root, List.nil_append]
  · rw [segments_child hs h.2, path_of_ne hs]

theorem child_inj {a b s u : String} (hs : Plain s) (hu : Plain u) :
    child a s = child b u ↔ a = b ∧ s = u := by
  constructor
  · intro h
    have hp : path a ++ [s] = path b ++ [u] := by rw [← path_child a hs, h, path_child b hu]
    obtain ⟨hab, hsu⟩ := List.append_inj' hp rfl
    exact ⟨path_inj.mp hab, by simpa using hsu⟩
  · rintro ⟨rfl, rfl⟩
    rfl

/-- The names on the way along a path, nearest to `stem` first. -/
def trail : String → List String → List String
  | _, [] => []
  | stem, s :: path => child stem s :: trail (child stem s) path

theorem mem_trail {stem m : String} {path : List String} :
    m ∈ trail stem path ↔ ∃ p, p ≠ [] ∧ p <+: path ∧ m = below stem p := by
  induction path generalizing stem with
  | nil =>
      constructor
      · intro h
        cases h
      · rintro ⟨p, hp, hprefix, _⟩
        exact absurd (List.prefix_nil.mp hprefix) hp
  | cons s path ih =>
      rw [trail, List.mem_cons, ih]
      constructor
      · rintro (rfl | ⟨p, _, hprefix, rfl⟩)
        · exact ⟨[s], by simp, by simp, rfl⟩
        · exact ⟨s :: p, by simp, by simpa using hprefix, rfl⟩
      · rintro ⟨p, hp, hprefix, rfl⟩
        cases p with
        | nil => exact absurd rfl hp
        | cons x p =>
            obtain ⟨rfl, hrest⟩ := List.cons_prefix_cons.mp hprefix
            by_cases hnil : p = []
            · exact .inl (by simp [hnil])
            · exact .inr ⟨p, hnil, hrest, rfl⟩

/-- A name other than the empty one that is `name` or ends where `name` has a dot. -/
def DottedPrefix (m name : String) : Prop :=
  m ≠ "" ∧ (m = name ∨ ∃ rest, name = m ++ "." ++ rest)

theorem dottedPrefix_iff {name : String} (h : Proper name) (m : String) :
    DottedPrefix m name ↔ m ∈ trail "" (segments name) := by
  rw [mem_trail]
  constructor
  · rintro ⟨_, rfl | ⟨rest, rfl⟩⟩
    · exact ⟨segments m, segments_ne_nil m, List.prefix_refl _, (below_segments h).symm⟩
    · have hm : Proper m := fun s hs => h s (by simp [segments_append, hs])
      refine ⟨segments m, segments_ne_nil m, ?_, (below_segments hm).symm⟩
      rw [segments_append]
      exact List.prefix_append ..
  · rintro ⟨p, hp, ⟨q, hq⟩, rfl⟩
    have hpq : ∀ s ∈ p, s ≠ "" := fun s hs => h s (by simp [← hq, hs])
    have hne : below "" p ≠ "" := below_ne_empty hpq (.inr hp)
    have hname : name = below (below "" p) q := by
      rw [← below_append, hq, below_segments h]
    refine ⟨hne, ?_⟩
    by_cases hnil : q = []
    · exact .inl (by simp [hname, hnil])
    · exact .inr ⟨String.intercalate "." q, by rw [hname, below_eq hne hnil]⟩

end TagTree.Name
