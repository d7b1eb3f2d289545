import Mathlib.Data.List.TakeWhile
import TagTree.Proofs.Registry.Indexed
import TagTree.Proofs.Registry.Precedence

/-!
# Registries without tags

What code registers in a registry that has nothing yet are the names of its
table up to the first that is refused, with the names above them. If the names
of the table differ, each has the comment of its row, and if the redirects are
of different names, each of them counts.

The general description of a registry after registrations becomes simple if it
had no tags: the accepted names are those of the table up to the first that is
refused, and a name is registered if it is a dotted prefix of one of them. With
names that differ, the claims on a name are the one row of that name, so its
source is code and its comment the comment of the row.

For redirects the same is said of names that differ and have no redirect yet:
adding them appends them, and each is then found by its old name. A lookup of
such an old name, if the name is not registered and the target is, takes one
hop.
-/
namespace TagTree.Registry

/-- A registry without tags in which code may register. -/
structure Untagged (r : Registry) : Prop where
  reachable : Reachable r
  isEmpty : r.isEmpty
  finalized : r.finalized = false

/-- A registry as it is made, without redirects as well. -/
structure Fresh (r : Registry) : Prop extends r.Untagged where
  redirects : r.redirects = []

theorem empty_fresh (s : Settings) : (empty s).Fresh := ⟨⟨.origin (.empty s), rfl, rfl⟩, rfl⟩

namespace Untagged
variable {r : Registry} (h : r.Untagged)
include h

theorem position?_eq_none (name : String) : r.tree.position? name = none := by
  have htags : r.tree.tags = [] := by
    rw [← List.length_eq_zero_iff, Tree.length_tags]
    exact beq_iff_eq.mp h.isEmpty
  rw [← Option.not_isSome_iff_eq_none]
  intro hsome
  have hmem : Tag.mk name ∈ r.tree.tags := h.reachable.consistent.tree.mem_tags.mpr hsome
  rw [htags] at hmem
  cases hmem

theorem logged_eq_nil : r.logged = [] := by
  refine List.eq_nil_iff_forall_not_mem.mpr ?_
  intro n hn
  have hc := h.reachable.consistent
  have hprefix : Name.DottedPrefix n n := ⟨(hc.valid n hn).ne_empty, .inl rfl⟩
  have hsome := (hc.names n).mpr ⟨n, hn, hprefix⟩
  rw [h.position?_eq_none] at hsome
  cases hsome

theorem claimed : Claimed [] r.tree :=
  ⟨h.reachable.consistent.tree, fun name => Tree.entryAt_of_none (h.position?_eq_none name)⟩

theorem contains_addNatives (rows : List Row) (m : String) :
    (r.addNatives rows).value.1.contains m ↔
      ∃ n ∈ nativeNames false rows, Name.DottedPrefix m n := by
  have hgrows := (addNatives_grows h.reachable.consistent rows).1
  rw [h.finalized] at hgrows
  rw [contains, hgrows.consistent.names]
  simp only [hgrows.logged, h.logged_eq_nil, List.not_mem_nil, false_or]

end Untagged

theorem nativeRows_of_valid {rows : List Row} (h : ∀ row ∈ rows, Name.Valid row.tag) :
    nativeRows false rows = rows := by
  rw [nativeRows, if_neg Bool.false_ne_true, List.takeWhile_eq_self_iff]
  simpa using h

theorem nativeNames_of_valid {rows : List Row} (h : ∀ row ∈ rows, Name.Valid row.tag) :
    nativeNames false rows = rows.map (·.tag) := by
  rw [← map_tag_nativeRows, nativeRows_of_valid h, List.map_map]
  rfl

theorem takeWhile_congr {α : Type} {p q : α → Bool} {xs : List α} (h : ∀ x ∈ xs, p x = q x) :
    xs.takeWhile p = xs.takeWhile q := by
  induction xs with
  | nil => rfl
  | cons x xs ih =>
      obtain ⟨hx, hxs⟩ := List.forall_mem_cons.mp h
      rw [List.takeWhile_cons, List.takeWhile_cons, hx, ih hxs]

theorem filter_key_eq_singleton {α : Type} (key : α → String) {xs : List α}
    (h : (xs.map key).Nodup) {x : α} (hx : x ∈ xs) : xs.filter (key · == key x) = [x] := by
  induction xs with
  | nil => cases hx
  | cons y ys ih =>
      rw [List.map_cons, List.nodup_cons] at h
      rcases List.mem_cons.mp hx with rfl | hx
      · rw [List.filter_cons, if_pos (beq_self_eq_true _), List.filter_eq_nil_iff.mpr]
        intro y hy he
        exact h.1 (eq_of_beq he ▸ List.mem_map_of_mem hy)
      · have hne : ¬ (key y == key x) = true := by
          intro he
          exact h.1 (eq_of_beq he ▸ List.mem_map_of_mem hx)
        rw [List.filter_cons, if_neg hne, ih h.2 hx]

theorem claimsOn_coded {rows : List Row} (h : (rows.map (·.tag)).Nodup) {row : Row}
    (hrow : row ∈ rows) : claimsOn (rows.map .coded) row.tag = [.coded row] := by
  rw [claimsOn, List.filter_map]
  exact congrArg (List.map Claim.coded) (filter_key_eq_singleton (·.tag) h hrow)

theorem claimedEntry_coded (row : Row) :
    claimedEntry [.coded row] = ⟨some Source.native, row.comment⟩ :=
  claimedEntry_snoc [] (.coded row)

theorem target?_eq_none {r : Registry} {old : String} :
    r.target? old = none ↔ old ∉ r.redirects.map (·.old) := by
  rw [target?, Option.map_eq_none_iff, List.find?_eq_none]
  simp

theorem addRedirects_of_new {r : Registry} {ds : List Redirect} (hself : ∀ d ∈ ds, d.old ≠ d.new)
    (hnew : (r.redirects.map (·.old) ++ ds.map (·.old)).Nodup) :
    (r.addRedirects ds).value = { r with redirects := r.redirects ++ ds } := by
  induction ds generalizing r with
  | nil => simp [addRedirects]
  | cons d ds ih =>
      obtain ⟨hd, hself⟩ := List.forall_mem_cons.mp hself
      have hfree : r.target? d.old = none := by
        rw [target?_eq_none]
        intro hmem
        exact (List.nodup_append.mp hnew).2.2 d.old hmem d.old (by simp) rfl
      have hadd : (r.addRedirect d).value = ({ r with redirects := r.redirects ++ [d] }, true) := by
        rw [addRedirect, if_neg hd, hfree]
        rfl
      rw [addRedirects, Logged.value_bind, hadd]
      dsimp only
      rw [ih hself (by simpa using hnew)]
      simp

theorem target?_of_mem {r : Registry} (h : (r.redirects.map (·.old)).Nodup) {d : Redirect}
    (hd : d ∈ r.redirects) : r.target? d.old = some d.new := by
  rw [target?, ← List.head?_filter, filter_key_eq_singleton (·.old) h hd]
  rfl

/-- A redirect of an unregistered name to a registered one takes one step. -/
theorem Consistent.lookup_of_target {r : Registry} (h : r.Consistent) (hhops : 1 ≤ r.settings.maxHops)
    {old new : String} (hold : r.contains old = false) (hne : old ≠ "") (hnone : old ≠ Name.none)
    (htarget : r.target? old = some new) (hnew : r.contains new) : (r.lookup old).value = ⟨new⟩ := by
  obtain ⟨hops, hhops⟩ := Nat.exists_eq_add_of_le hhops
  rw [lookup, if_neg (by simp [hne, hnone]), h.find?_eq, if_neg (by simp [hold]), Logged.value_bind]
  rw [resolve, hhops, Nat.add_comm, follow, htarget]
  dsimp only
  rw [h.find?_eq, if_pos hnew]
  rfl

end TagTree.Registry
