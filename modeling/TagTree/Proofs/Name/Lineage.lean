import Mathlib.Data.List.Infix
import TagTree.Proofs.Name.Ancestors

/-!
# Ancestors and the segments they have in common

A name and its ancestors, the shortest first, have the prefixes of the name's
segments as their segments. So to be an ancestor is to have a prefix of the
segments, and what two names have in common on the way up is the longest common
prefix of their segments.

The bridge is `inits_segments`. It is proved for lists of characters first,
where cutting at the dots and taking the characters before each dot are both
structural recursions, and then carried over to names. Since the segments
determine a name, lineages can be compared by comparing prefixes.

The longest common prefix of two lists is computed by comparing from the front,
and its prefixes are exactly the prefixes that both have. Counting the shared
part of two lineages is counting these prefixes, and the number of names in a
lineage is the number of segments. Ancestors come from the nearest to the root,
each a proper prefix of the one before it.
-/
namespace TagTree.Name

section CommonPrefix
variable {α : Type} [DecidableEq α]

def commonPrefix : List α → List α → List α
  | x :: xs, y :: ys => if x = y then x :: commonPrefix xs ys else []
  | _, _ => []

/-- It is the longest: what is a prefix of both is a prefix of it, and nothing else is. -/
theorem prefix_commonPrefix {p xs ys : List α} :
    p <+: commonPrefix xs ys ↔ p <+: xs ∧ p <+: ys := by
  induction p generalizing xs ys with
  | nil => simp
  | cons z p ih =>
      cases xs with
      | nil => simp [commonPrefix]
      | cons x xs =>
          cases ys with
          | nil => simp [commonPrefix]
          | cons y ys =>
              rw [commonPrefix, List.cons_prefix_cons, List.cons_prefix_cons]
              by_cases hxy : x = y
              · rw [if_pos hxy, List.cons_prefix_cons, ih, ← hxy]
                tauto
              · rw [if_neg hxy]
                constructor
                · intro h
                  cases List.prefix_nil.mp h
                · rintro ⟨⟨rfl, _⟩, rfl, _⟩
                  exact absurd rfl hxy

theorem commonPrefix_comm (xs ys : List α) : commonPrefix xs ys = commonPrefix ys xs := by
  have hle : ∀ xs ys : List α, commonPrefix xs ys <+: commonPrefix ys xs := fun xs ys =>
    prefix_commonPrefix.mpr (prefix_commonPrefix.mp (List.prefix_refl _)).symm
  exact (hle xs ys).eq_of_length_le (hle ys xs).length_le

theorem filter_inits (xs ys : List α) :
    xs.inits.filter (fun p => decide (p <+: ys)) = (commonPrefix xs ys).inits := by
  induction xs generalizing ys with
  | nil => simp [commonPrefix]
  | cons x xs ih =>
      cases ys with
      | nil => simp [commonPrefix, List.filter_map, Function.comp_def]
      | cons y ys =>
          rw [List.inits_cons, List.filter_cons_of_pos (by simp), List.filter_map, commonPrefix]
          by_cases hxy : x = y
          · subst hxy
            simp [Function.comp_def, List.cons_prefix_cons, ih]
          · simp [Function.comp_def, List.cons_prefix_cons, hxy]

end CommonPrefix

theorem inits_map {α β : Type} (f : α → β) (xs : List α) :
    (xs.map f).inits = xs.inits.map (List.map f) := by
  induction xs with
  | nil => rfl
  | cons x xs ih => simp [ih, Function.comp_def]

theorem inits_modifyHead {α : Type} (f : α → α) (xs : List α) :
    (xs.modifyHead f).inits = xs.inits.map (List.modifyHead f) := by
  cases xs with
  | nil => rfl
  | cons x xs => simp [Function.comp_def]

theorem splitDots_dot (cs : List Char) : splitDots ('.' :: cs) = [] :: splitDots cs := rfl

theorem splitDots_of_ne {c : Char} (hc : c ≠ '.') (cs : List Char) :
    splitDots (c :: cs) = (splitDots cs).modifyHead (c :: ·) := by
  rw [splitDots_eq, splitDots_eq, List.splitOn_cons_eq_if_modifyHead]
  simp [hc]

theorem inits_splitDots (cs : List Char) :
    (splitDots cs).inits = [] :: (stems cs ++ [cs]).map splitDots := by
  induction cs with
  | nil => rfl
  | cons c cs ih =>
      by_cases hc : c = '.'
      · subst hc
        rw [splitDots_dot, List.inits_cons, ih]
        simp [stems, splitDots, Function.comp_def]
      · rw [splitDots_of_ne hc, inits_modifyHead, ih]
        simp [stems, hc, splitDots_of_ne hc, Function.comp_def]

theorem inits_segments (name : String) :
    (segments name).inits = [] :: ((name :: ancestors name).map segments).reverse := by
  have hlineage : (name :: ancestors name).reverse =
      (stems name.toList ++ [name.toList]).map String.ofList := by
    simp [ancestors]
  have hsegments : segments ∘ String.ofList = List.map String.ofList ∘ splitDots := by
    funext cs
    simp [segments]
  rw [← List.map_reverse, hlineage, List.map_map, hsegments, segments, inits_map, inits_splitDots]
  simp

theorem segments_inj {m n : String} : segments m = segments n ↔ m = n := by
  constructor
  · intro h
    rw [← intercalate_segments m, h, intercalate_segments]
  · rintro rfl
    rfl

theorem mem_lineage {m name : String} :
    m ∈ name :: ancestors name ↔ segments m <+: segments name := by
  rw [← List.mem_inits, inits_segments]
  constructor
  · intro hm
    exact List.mem_cons_of_mem _ (List.mem_reverse.mpr (List.mem_map_of_mem hm))
  · intro hm
    rcases List.mem_cons.mp hm with hnil | hm
    · exact absurd hnil (segments_ne_nil m)
    · obtain ⟨n, hn, he⟩ := List.mem_map.mp (List.mem_reverse.mp hm)
      exact segments_inj.mp he ▸ hn

theorem DottedPrefix.path_prefix {m name : String} (h : DottedPrefix m name) :
    path m <+: path name := by
  obtain ⟨hm, hlineage⟩ := dottedPrefix_iff_ancestor.mp h
  have hname : name ≠ "" := by
    rintro rfl
    rcases h.2 with rfl | ⟨rest, hrest⟩
    · exact hm rfl
    · have hlist := congrArg String.toList hrest
      simp at hlist
  rw [path_of_ne hm, path_of_ne hname]
  exact mem_lineage.mp (List.mem_cons.mpr hlineage)

theorem length_lineage (name : String) : (name :: ancestors name).length = (segments name).length := by
  have h := congrArg List.length (inits_segments name)
  simpa using h.symm

/-- Two lineages share as many names as the segments have common in front. -/
theorem length_shared (a b : String) :
    ((a :: ancestors a).filter fun m => decide (segments m <+: segments b)).length =
      (commonPrefix (segments a) (segments b)).length := by
  have h := congrArg List.length (filter_inits (segments a) (segments b))
  rw [inits_segments, List.filter_cons_of_pos (by simp), List.length_cons, List.filter_reverse,
    List.length_reverse, List.filter_map, List.length_map, List.length_inits] at h
  exact Nat.succ.inj h

theorem stems_pairwise (cs : List Char) :
    (stems cs).Pairwise fun x y => x.length < y.length := by
  induction cs with
  | nil => exact .nil
  | cons c cs ih =>
      have hdeeper : ((stems cs).map (c :: ·)).Pairwise fun x y => x.length < y.length := by
        rw [List.pairwise_map]
        simpa using ih
      rw [stems]
      split
      · refine List.pairwise_cons.mpr ⟨?_, hdeeper⟩
        intro x hx
        obtain ⟨y, _, rfl⟩ := List.mem_map.mp hx
        simp
      · exact hdeeper

theorem ancestors_pairwise (name : String) :
    (ancestors name).Pairwise fun m n => n.length < m.length := by
  rw [ancestors, List.pairwise_reverse, List.pairwise_map]
  simpa using stems_pairwise name.toList

theorem mem_ancestors_iff {name : String} (h : Proper name) {m : String} :
    m ∈ ancestors name ↔ DottedPrefix m name ∧ m ≠ name := by
  rw [dottedPrefix_iff_ancestor]
  constructor
  · intro hm
    exact ⟨⟨(h.of_ancestor hm).ne_empty, .inr hm⟩, ne_of_mem_ancestors hm⟩
  · rintro ⟨⟨_, hm⟩, hne⟩
    exact hm.resolve_left hne

theorem stems_of_dotless {cs : List Char} (h : '.' ∉ cs) : stems cs = [] := by
  refine List.eq_nil_iff_forall_not_mem.mpr ?_
  intro x hx
  obtain ⟨rest, rfl⟩ := mem_stems.mp hx
  exact h (by simp)

theorem stems_append {cs ds : List Char} (h : '.' ∉ ds) :
    stems (cs ++ '.' :: ds) = stems cs ++ [cs] := by
  induction cs with
  | nil => simp [stems, stems_of_dotless h]
  | cons c cs ih =>
      rw [List.cons_append, stems, ih, stems]
      split <;> simp

theorem ancestors_child (stem : String) {s : String} (h : Plain s) :
    ancestors (child stem s) = if stem = "" then [] else stem :: ancestors stem := by
  by_cases hs : stem = ""
  · rw [if_pos hs, hs, child_root, ancestors, stems_of_dotless h.2]
    rfl
  · have hlist : (child stem s).toList = stem.toList ++ '.' :: s.toList := by
      simp [child_of_ne hs]
    rw [if_neg hs, ancestors, hlist, stems_append h.2, ancestors]
    simp

end TagTree.Name
