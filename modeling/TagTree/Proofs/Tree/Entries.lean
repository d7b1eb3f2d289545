import TagTree.Proofs.Tree.Insertion

/-!
# Entries of names

What a tree knows of a name, and how that changes: registering a name changes
its own entry and no other, and the nodes that come along know nothing yet.
Indices have no part in it.

`entryAt` answers for every text, registered or not, so what a tree knows is a
function on names and two trees can be compared by it. Making a node leaves the
answers alone, since a new node has the empty entry that its name had before;
changing an entry changes the answer for one name. Assigning indices changes
nodes and not their entries, and the proof goes along the list of tags that get
an index.

The history of a name's source and comment can therefore be told without the
tree, as a fold of the rows that concerned it.
-/
namespace TagTree.Tree

def entryAt (t : Tree) (name : String) : Entry := ((t.node? name).map (·.entry)).getD {}

theorem entry_eq {e f : Entry} (hs : e.source = f.source) (hc : e.comment = f.comment) : e = f := by
  cases e
  cases f
  exact congrArg₂ Entry.mk hs hc

theorem entryAt_of_position {t : Tree} {name : String} {i : Nat} (h : t.position? name = some i) :
    t.entryAt name = (t.node i).entry := by
  rw [entryAt, node?, h]
  rfl

theorem entryAt_of_none {t : Tree} {name : String} (h : t.position? name = none) :
    t.entryAt name = {} := by
  rw [entryAt, node?, h]
  rfl

theorem entryAt_empty (name : String) : empty.entryAt name = {} := entryAt_of_none rfl

theorem entryAt_congr {t u : Tree} (hnames : ∀ m, u.position? m = t.position? m)
    (hentry : ∀ i, (u.node i).entry = (t.node i).entry) (name : String) :
    u.entryAt name = t.entryAt name := by
  cases hp : t.position? name with
  | none => rw [entryAt_of_none hp, entryAt_of_none ((hnames name).trans hp)]
  | some i => rw [entryAt_of_position hp, entryAt_of_position ((hnames name).trans hp), hentry]

/-- A tree that has grown knows what it knew. -/
theorem Extends.entryAt {t u : Tree} {added : List String} (h : Extends t u added)
    (ht : t.WellFormed) (name : String) : u.entryAt name = t.entryAt name := by
  cases hu : u.position? name with
  | none =>
      have hnone : t.position? name = none := by
        cases hp : t.position? name with
        | none => rfl
        | some i =>
            have hsome := (h.names name).mpr (.inl (by rw [hp]; rfl))
            rw [hu] at hsome
            cases hsome
      rw [entryAt_of_none hu, entryAt_of_none hnone]
  | some j =>
      obtain ⟨hj, hlt, hname⟩ := (h.wellFormed.names name j).mp hu
      rw [entryAt_of_position hu]
      by_cases hold : j < t.nodes.size
      · have hkept := h.kept j hold
        have hp : t.position? name = some j := by
          apply (ht.names name j).mpr
          rw [hkept] at hname
          exact ⟨hj, hold, hname⟩
        rw [entryAt_of_position hp, hkept]
      · have hnone : t.position? name = none := by
          cases hp : t.position? name with
          | none => rfl
          | some i =>
              -- The name would be that of an older node, which is still there.
              obtain ⟨_, hi, hold'⟩ := (ht.names name i).mp hp
              have hiu : i < u.nodes.size := Nat.lt_of_lt_of_le hi h.size_le
              have hsame : (u.node i).tag.name = (u.node j).tag.name := by
                rw [h.kept i hi, hname]
                exact hold'
              have hij := h.wellFormed.eq_of_name_eq hiu hlt hsame
              omega
        rw [entryAt_of_none hnone, (h.fresh j (Nat.le_of_not_lt hold)).1]

theorem entryAt_insert {t : Tree} (h : t.WellFormed) {name : String} (hname : Name.Proper name)
    (f : Entry → Entry) (m : String) : (t.insert f name).entryAt m =
      if m = name then f (t.entryAt m) else t.entryAt m := by
  obtain ⟨u, i, hext, hi, hu⟩ := insert_spec h hname f
  have hshape := change_sameShape u i f
  rw [hu, ← hext.entryAt h m]
  cases hm : u.position? m with
  | none =>
      have hne : m ≠ name := by
        rintro rfl
        rw [hm] at hi
        cases hi
      rw [if_neg hne, entryAt_of_none hm, entryAt_of_none ((hshape.position? m).trans hm)]
  | some j =>
      obtain ⟨_, hlt, hnamej⟩ := (hext.wellFormed.names m j).mp hm
      rw [entryAt_of_position hm, entryAt_of_position ((hshape.position? m).trans hm), node_change]
      by_cases hmn : m = name
      · rw [hmn, hi] at hm
        rw [if_pos hmn, if_pos ⟨Option.some.inj hm, hlt⟩]
      · have hij : i ≠ j := by
          rintro rfl
          exact hmn (hnamej.symm.trans ((hext.wellFormed.names name i).mp hi).2.2)
        rw [if_neg hmn, if_neg fun h => hij h.1]

theorem assign_entry (t : Tree) (first : Nat) (tags : List Tag) (i : Nat) :
    ((t.assign first tags).node i).entry = (t.node i).entry := by
  induction tags generalizing t first with
  | nil => rfl
  | cons tag tags ih =>
      rw [assign]
      split
      · rw [ih, node_setIndex]
        split <;> rfl
      · exact ih ..

theorem entryAt_reindex (t : Tree) (tags : List Tag) (name : String) :
    (t.reindex tags).entryAt name = t.entryAt name := by
  apply entryAt_congr (reindex_sameShape t tags).position?
  intro i
  rw [reindex, assign_entry, node_withoutIndices]

end TagTree.Tree
