import TagTree.Proofs.Tree.Shape

/-!
# Registering a name

One step of the walk enters a child, which is made if it is missing, and keeps
the shape of the tree. A whole walk therefore keeps it too, adds the names on
its way and nothing else, and ends at the node of the name it was started for.

`insertChild` is the only place where a node is made. Its lemmas say field by
field what the array holds afterwards: older nodes keep everything but the child
list of the parent, and the new node stands at the end with the name of its
parent and its segment. From them follows that the shape is kept, given that the
parent has no child of this segment, and `findChild` is what guarantees that.

`Extends` is the relation that a walk keeps. It lists the names that were added,
and it composes, so the induction along the segments of a name only has to look
at one step. What registering does to the map of names is read off the list: the
dotted prefixes of the name and nothing else.
-/
namespace TagTree.Tree

theorem insertIdx_append {α : Type} (before after : List α) (x : α) :
    (before ++ after).insertIdx before.length x = before ++ x :: after := by
  induction before with
  | nil => rfl
  | cons y before ih => simp [List.insertIdx_succ_cons, ih]

theorem pairwise_insert {l₁ l₂ : List String} {s : String} (h : (l₁ ++ l₂).Pairwise (· < ·))
    (h₁ : ∀ x ∈ l₁, x < s) (h₂ : ∀ x ∈ l₂, s < x) : (l₁ ++ s :: l₂).Pairwise (· < ·) := by
  rw [List.pairwise_append] at h ⊢
  refine ⟨h.1, List.pairwise_cons.mpr ⟨h₂, h.2.1⟩, ?_⟩
  intro x hx y hy
  rcases List.mem_cons.mp hy with rfl | hy
  · exact h₁ x hx
  · exact h.2.2 x hx y hy

section InsertChild
variable {t : Tree} {p : Nat} (hp : p < t.nodes.size) (k : Nat) (s name : String)

theorem size_insertChild : (t.insertChild p k s name).nodes.size = t.nodes.size + 1 := by
  simp [insertChild]

theorem position?_insertChild (m : String) :
    (t.insertChild p k s name).position? m = if m = name then some t.nodes.size else t.position? m := by
  by_cases h : m = name
  · simp [position?, insertChild, h]
  · have hb : (m == name) = false := by simpa using h
    simp [position?, insertChild, List.lookup_cons, hb, h]

include hp

theorem node_insertChild (i : Nat) :
    (t.insertChild p k s name).node i =
      if i = t.nodes.size then t.leaf p s name
      else if i = p then
        { t.node p with children := (t.node p).children.insertIdx k t.nodes.size }
      else t.node i := by
  have hpush : (Tree.mk (t.nodes.push (t.leaf p s name)) t.names).node i =
      if i = t.nodes.size then t.leaf p s name else t.node i := by
    simp only [node, Array.getD_eq_getD_getElem?, Array.getElem?_push]
    split <;> rfl
  have hmodify := node_modify ⟨t.nodes.push (t.leaf p s name), t.names⟩
    ((name, t.nodes.size) :: t.names) p i fun q =>
      { q with children := q.children.insertIdx k t.nodes.size }
  rw [hpush, Array.size_push] at hmodify
  rw [insertChild, hmodify]
  by_cases hn : i = t.nodes.size
  · have hpi : p ≠ i := by omega
    simp only [hn, if_true]
    rw [if_neg (by omega)]
  · by_cases hpi : i = p
    · rw [if_pos ⟨hpi.symm, by omega⟩, if_neg hn, if_neg hn, if_pos hpi, hpi]
    · rw [if_neg fun h => hpi h.1.symm, if_neg hn, if_neg hn, if_neg hpi]

theorem field_insertChild {β : Type} (f : Node → β) (hf : ∀ n cs, f { n with children := cs } = f n)
    (i : Nat) : f ((t.insertChild p k s name).node i) =
      if i = t.nodes.size then f (t.leaf p s name) else f (t.node i) := by
  rw [node_insertChild hp]
  split
  · rfl
  · split
    · rename_i hpi
      rw [hf, hpi]
    · rfl

theorem segment_insertChild (i : Nat) : ((t.insertChild p k s name).node i).segment =
    if i = t.nodes.size then s else (t.node i).segment :=
  field_insertChild hp k s name (·.segment) (fun _ _ => rfl) i

theorem tag_insertChild (i : Nat) : ((t.insertChild p k s name).node i).tag =
    if i = t.nodes.size then ⟨name⟩ else (t.node i).tag :=
  field_insertChild hp k s name (·.tag) (fun _ _ => rfl) i

theorem parent_insertChild (i : Nat) : ((t.insertChild p k s name).node i).parent =
    if i = t.nodes.size then some p else (t.node i).parent :=
  field_insertChild hp k s name (·.parent) (fun _ _ => rfl) i

theorem above_insertChild (i : Nat) : ((t.insertChild p k s name).node i).above =
    if i = t.nodes.size then (t.node p).lineage else (t.node i).above :=
  field_insertChild hp k s name (·.above) (fun _ _ => rfl) i

theorem lineage_insertChild {i : Nat} (hi : i < t.nodes.size) :
    ((t.insertChild p k s name).node i).lineage = (t.node i).lineage := by
  rw [field_insertChild hp k s name (·.lineage) (fun _ _ => rfl), if_neg (by omega)]

theorem children_insertChild (i : Nat) : ((t.insertChild p k s name).node i).children =
    if i = p then (t.node p).children.insertIdx k t.nodes.size else (t.node i).children := by
  rw [node_insertChild hp]
  split
  · rename_i hn
    rw [if_neg (by omega), hn, node_of_le (Nat.le_refl _)]
    rfl
  · split <;> rfl

variable {k} in
theorem mem_children_insertChild (hk : k ≤ (t.node p).children.length) (i c : Nat) :
    c ∈ ((t.insertChild p k s name).node i).children ↔
      c ∈ (t.node i).children ∨ i = p ∧ c = t.nodes.size := by
  rw [children_insertChild hp]
  by_cases hi : i = p
  · rw [if_pos hi, List.mem_insertIdx hk, hi, or_comm]
    simp
  · simp [hi]

end InsertChild

namespace WellFormed
variable {t : Tree} (h : t.WellFormed)
include h

theorem name_ne_of_findChild_error {p k : Nat} {s : String} (hp : p < t.nodes.size)
    (hs : Name.Plain s) (hf : t.findChild p s = .error k) {i : Nat} (hi : i < t.nodes.size) :
    (t.node i).tag.name ≠ Name.child (t.node p).tag.name s := by
  intro he
  have hi0 : 0 < i := by
    rcases Nat.eq_zero_or_pos i with h0 | h0
    · rw [(h.name_eq_empty_iff hi).mpr h0] at he
      exact absurd he.symm (Name.child_ne_empty _ hs.1)
    · exact h0
  obtain ⟨q, hqi, hq, hmem⟩ := h.parent i hi0 hi
  obtain ⟨hplain, hname⟩ := h.name i q hq
  rw [hname, Name.child_inj hplain hs] at he
  have hqp : q = p := h.eq_of_name_eq (by omega) hp he.1
  have hok := (findChild_eq_ok_iff (h.sorted p)).mpr ⟨hqp ▸ hmem, he.2⟩
  rw [hf] at hok
  cases hok

section InsertChild
variable {p k : Nat} {s : String} (hp : p < t.nodes.size) (hs : Name.Plain s)
  (hf : t.findChild p s = .error k)
include hp hf

theorem insertChild_sorted (name : String) (i : Nat) :
    ((t.insertChild p k s name).childSegments i).Pairwise (· < ·) := by
  obtain ⟨before, after, hsplit, hk, hbefore, hafter⟩ := findChild_error (h.sorted p) hf
  have hinsert : (t.node p).children.insertIdx k t.nodes.size =
      before ++ t.nodes.size :: after := by
    rw [hsplit, ← hk, insertIdx_append]
  have hsorted := h.sorted i
  have hseg : ∀ c ∈ (t.node i).children,
      ((t.insertChild p k s name).node c).segment = (t.node c).segment := by
    intro c hc
    have hlt := (h.child i c hc).1
    rw [segment_insertChild hp, if_neg (by omega)]
  rw [childSegments] at hsorted ⊢
  rw [children_insertChild hp]
  by_cases hip : i = p
  · subst hip
    rw [hsplit] at hsorted hseg
    rw [if_pos rfl, hinsert, List.map_append, List.map_cons, segment_insertChild hp, if_pos rfl,
      List.map_congr_left fun c hc => hseg c (List.mem_append_left _ hc),
      List.map_congr_left fun c hc => hseg c (List.mem_append_right _ hc)]
    rw [List.map_append] at hsorted
    exact pairwise_insert hsorted (by simpa using hbefore) (by simpa using hafter)
  · rw [if_neg hip, List.map_congr_left hseg]
    exact hsorted

include hs

theorem insertChild_names (m : String) (i : Nat) :
    let u := t.insertChild p k s (Name.child (t.node p).tag.name s)
    u.position? m = some i ↔ 0 < i ∧ i < u.nodes.size ∧ (u.node i).tag.name = m := by
  intro u
  rw [position?_insertChild, size_insertChild, tag_insertChild hp]
  have hnonempty := h.nonempty
  by_cases hn : i = t.nodes.size
  · rw [if_pos hn, hn]
    by_cases hm : m = Name.child (t.node p).tag.name s
    · rw [if_pos hm]
      exact ⟨fun _ => ⟨hnonempty, by omega, hm.symm⟩, fun _ => rfl⟩
    · rw [if_neg hm, h.names]
      constructor
      · rintro ⟨_, hlt, _⟩
        omega
      · rintro ⟨_, _, hname⟩
        exact absurd hname.symm hm
  · have hlt : i < t.nodes.size + 1 ↔ i < t.nodes.size := by omega
    rw [if_neg hn, hlt]
    by_cases hm : m = Name.child (t.node p).tag.name s
    · rw [if_pos hm]
      constructor
      · intro hi
        exact absurd (Option.some.inj hi).symm hn
      · rintro ⟨_, hold, hname⟩
        exact absurd (hname.trans hm) (h.name_ne_of_findChild_error hp hs hf hold)
    · rw [if_neg hm]
      exact h.names m i

theorem insertChild :
    (t.insertChild p k s (Name.child (t.node p).tag.name s)).WellFormed := by
  obtain ⟨before, after, hsplit, hk, _, _⟩ := findChild_error (h.sorted p) hf
  have hle : k ≤ (t.node p).children.length := by
    rw [hsplit, List.length_append]
    omega
  constructor
  case nonempty =>
      rw [size_insertChild]
      omega
  case root_tag => rw [tag_insertChild hp, if_neg (by omega), h.root_tag]
  case root_parent => rw [parent_insertChild hp, if_neg (by omega), h.root_parent]
  case parent =>
      intro i hi hlt
      rw [size_insertChild] at hlt
      rw [parent_insertChild hp]
      by_cases hn : i = t.nodes.size
      · rw [if_pos hn]
        exact ⟨p, by omega, rfl, (mem_children_insertChild hp s _ hle p i).mpr (.inr ⟨rfl, hn⟩)⟩
      · obtain ⟨q, hqi, hq, hold⟩ := h.parent i hi (by omega)
        rw [if_neg hn]
        exact ⟨q, hqi, hq, (mem_children_insertChild hp s _ hle q i).mpr (.inl hold)⟩
  case child =>
      intro q c hc
      rw [size_insertChild, parent_insertChild hp]
      rcases (mem_children_insertChild hp s _ hle q c).mp hc with hold | ⟨hqp, hnew⟩
      · obtain ⟨hlt, hparent⟩ := h.child q c hold
        rw [if_neg (by omega)]
        exact ⟨by omega, hparent⟩
      · rw [if_pos hnew, hqp]
        exact ⟨by omega, rfl⟩
  case sorted => exact h.insertChild_sorted hp hf _
  case name =>
      intro i q hq
      rw [parent_insertChild hp] at hq
      rw [segment_insertChild hp, tag_insertChild hp, tag_insertChild hp]
      split at hq
      · rename_i hn
        cases hq
        rw [if_pos hn, if_pos hn, if_neg (by omega)]
        exact ⟨hs, rfl⟩
      · rename_i hn
        have hlt := h.of_parent hq
        rw [if_neg hn, if_neg hn, if_neg (by omega)]
        exact h.name i q hq
  case above =>
      intro i q hq
      rw [parent_insertChild hp] at hq
      rw [above_insertChild hp]
      split at hq
      · rename_i hn
        cases hq
        rw [if_pos hn, lineage_insertChild hp _ _ _ hp]
      · rename_i hn
        have hlt := h.of_parent hq
        rw [if_neg hn, lineage_insertChild hp _ _ _ (by omega)]
        exact h.above i q hq
  case names => exact h.insertChild_names hp hs hf

end InsertChild
end WellFormed

/-- A tree that has grown by nodes for the names `added`. Older nodes may have got children; new ones
are not named by any source and have no index. -/
structure Extends (t u : Tree) (added : List String) : Prop where
  wellFormed : u.WellFormed
  size_le : t.nodes.size ≤ u.nodes.size
  kept : ∀ i < t.nodes.size, u.node i = { t.node i with children := (u.node i).children }
  fresh : ∀ i, t.nodes.size ≤ i → (u.node i).entry = {} ∧ (u.node i).index = none
  names : ∀ m, (u.position? m).isSome ↔ (t.position? m).isSome ∨ m ∈ added

theorem Extends.refl {t : Tree} (h : t.WellFormed) : Extends t t [] := by
  refine ⟨h, Nat.le_refl _, fun i _ => rfl, ?_, by simp⟩
  intro i hi
  rw [node_of_le hi]
  exact ⟨rfl, rfl⟩

theorem Extends.trans {t u v : Tree} {first second : List String} (h : Extends t u first)
    (k : Extends u v second) : Extends t v (first ++ second) := by
  refine ⟨k.wellFormed, Nat.le_trans h.size_le k.size_le, ?_, ?_, ?_⟩
  · intro i hi
    rw [k.kept i (by have := h.size_le; omega), h.kept i hi]
  · intro i hi
    by_cases hu : i < u.nodes.size
    · rw [k.kept i hu]
      exact h.fresh i hi
    · exact k.fresh i (Nat.le_of_not_lt hu)
  · intro m
    rw [k.names, h.names, List.mem_append, or_assoc]

theorem insertChild_extends {t : Tree} {p k : Nat} {s : String} (h : t.WellFormed)
    (hp : p < t.nodes.size) (hs : Name.Plain s) (hf : t.findChild p s = .error k) :
    Extends t (t.insertChild p k s (Name.child (t.node p).tag.name s))
      [Name.child (t.node p).tag.name s] := by
  constructor
  case wellFormed => exact h.insertChild hp hs hf
  case size_le =>
      rw [size_insertChild]
      omega
  case kept =>
      intro i hi
      rw [node_insertChild hp, if_neg (by omega)]
      split
      · rename_i hip
        rw [hip]
      · rfl
  case fresh =>
      intro i hi
      rw [node_insertChild hp]
      split
      · exact ⟨rfl, rfl⟩
      · rw [if_neg (by omega), node_of_le hi]
        exact ⟨rfl, rfl⟩
  case names =>
      intro m
      rw [position?_insertChild, List.mem_singleton]
      by_cases hm : m = Name.child (t.node p).tag.name s
      · simp [hm]
      · simp [hm]

/-- One step down: the child is there afterwards, whether it was before or not. -/
theorem enter_extends {t : Tree} {p : Nat} {s : String} (h : t.WellFormed) (hp : p < t.nodes.size)
    (hs : Name.Plain s) :
    let next := t.enter p s (Name.child (t.node p).tag.name s)
    Extends t next.1 [Name.child (t.node p).tag.name s] ∧ next.2 < next.1.nodes.size ∧
      (next.1.node next.2).tag.name = Name.child (t.node p).tag.name s := by
  intro next
  cases hf : t.findChild p s with
  | ok c =>
      have hnext : next = (t, c) := by simp only [next, enter, hf]
      obtain ⟨hmem, hseg⟩ := findChild_ok hf
      obtain ⟨hlt, hpar⟩ := h.child p c hmem
      have hname : (t.node c).tag.name = Name.child (t.node p).tag.name s := by
        rw [(h.name c p hpar).2, hseg]
      have hpos := (h.names _ c).mpr ⟨h.pos_of_parent hpar, hlt, hname⟩
      rw [hnext]
      refine ⟨⟨h, Nat.le_refl _, fun i _ => rfl, (Extends.refl h).fresh, ?_⟩, hlt, hname⟩
      intro m
      constructor
      · exact .inl
      · rintro (hm | hm)
        · exact hm
        · rw [List.mem_singleton.mp hm, hpos]
          rfl
  | error k =>
      have hnext : next = (t.insertChild p k s (Name.child (t.node p).tag.name s), t.nodes.size) := by
        simp only [next, enter, hf]
      rw [hnext]
      refine ⟨insertChild_extends h hp hs hf, ?_, ?_⟩
      · rw [size_insertChild]
        omega
      · rw [tag_insertChild hp, if_pos rfl]

theorem descend_extends {name : String} {path : List String} {t : Tree} {current length : Nat}
    (h : t.WellFormed) (hcurrent : current < t.nodes.size) (hpath : ∀ s ∈ path, Name.Plain s)
    (hlength : length = (t.node current).tag.name.length)
    (hname : name = Name.below (t.node current).tag.name path) :
    let reached := descend name path t current length
    Extends t reached.1 (Name.trail (t.node current).tag.name path) ∧
      reached.2 < reached.1.nodes.size ∧ (reached.1.node reached.2).tag.name = name := by
  induction path generalizing t current length with
  | nil => exact ⟨.refl h, hcurrent, hname.symm⟩
  | cons s path ih =>
      have hs : Name.Plain s := hpath s List.mem_cons_self
      have hlen : length + (if current = 0 then s.length else s.length + 1) =
          (Name.child (t.node current).tag.name s).length := by
        rw [Name.length_child, hlength]
        simp only [h.name_eq_empty_iff hcurrent]
      have hslice : Name.upTo (Name.child (t.node current).tag.name s).length name =
          Name.child (t.node current).tag.name s := by
        rw [hname, Name.below_cons, Name.upTo_below]
      obtain ⟨hstep, hlt, htag⟩ := enter_extends h hcurrent hs
      intro reached
      have hreached : reached = descend name path _ _ _ := rfl
      rw [hlen, hslice] at hreached
      rw [hreached]
      have hrest := ih hstep.wellFormed hlt (fun x hx => hpath x (List.mem_cons_of_mem _ hx))
        (congrArg String.length htag.symm) (by rw [hname, htag, Name.below_cons])
      rw [htag] at hrest
      exact ⟨hstep.trans hrest.1, hrest.2⟩

/-- Registering a name extends the tree by its dotted prefixes and changes one entry, its own. -/
theorem insert_spec {t : Tree} (h : t.WellFormed) {name : String} (hname : Name.Proper name)
    (f : Entry → Entry) :
    ∃ u i, Extends t u (Name.trail "" (Name.segments name)) ∧ u.position? name = some i ∧
      t.insert f name = u.change i f := by
  have hroot : (t.node 0).tag.name = "" := by
    rw [h.root_tag]
    rfl
  have hlength : 0 = (t.node 0).tag.name.length := by
    rw [hroot]
    rfl
  obtain ⟨hext, hlt, htag⟩ := descend_extends h h.nonempty (fun s hs => hname.plain hs) hlength
    (by rw [hroot, Name.below_segments hname])
  rw [hroot] at hext
  refine ⟨_, _, hext, ?_, rfl⟩
  refine (hext.wellFormed.names name _).mpr ⟨?_, hlt, htag⟩
  rcases Nat.eq_zero_or_pos (descend name (Name.segments name) t 0 0).2 with h0 | h0
  · have he := (hext.wellFormed.name_eq_empty_iff hlt).mpr h0
    exact absurd (htag.symm.trans he) hname.ne_empty
  · exact h0

theorem insert_wellFormed {t : Tree} (h : t.WellFormed) {name : String} (hname : Name.Proper name)
    (f : Entry → Entry) : (t.insert f name).WellFormed := by
  obtain ⟨u, i, hext, _, hu⟩ := insert_spec h hname f
  rw [hu]
  exact (change_sameShape u i f).wellFormed hext.wellFormed

theorem insert_names {t : Tree} (h : t.WellFormed) {name : String} (hname : Name.Proper name)
    (f : Entry → Entry) (m : String) : ((t.insert f name).position? m).isSome ↔
      (t.position? m).isSome ∨ Name.DottedPrefix m name := by
  obtain ⟨u, i, hext, _, hu⟩ := insert_spec h hname f
  rw [hu, (change_sameShape u i f).position?, hext.names, Name.dottedPrefix_iff hname]

end TagTree.Tree
