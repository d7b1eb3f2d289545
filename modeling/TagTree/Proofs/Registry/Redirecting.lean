import TagTree.Proofs.Container.Sound
import TagTree.Proofs.Registry.Requesting

/-!
# Redirecting a container

The explicit tags that have a redirect are replaced one after the other, each by
the tag that its own redirects lead to. A replacement can therefore be taken
away again, by a later step for a tag that was explicit from the start. What is
left is described for every container, and it is the simultaneous replacement,
in whatever order the tags stand, exactly if no tag turns into an explicit one
that is replaced itself.

A replacement is a removal followed by an addition, so a tag that is put in
behind the others can be removed by a later replacement, and one that was
removed can come back. After all replacements a tag is left if it was brought in
and not removed later, or if it was there and has no redirect. `Settles` says
this for the replacements still to come, by induction on their list.

The simultaneous replacement is the set of what the tags are to become. It is
what is left if no tag turns into another explicit tag that has a redirect of
its own. Conversely, if some tag does, the two can be ordered so that its image
is removed again, and the last tag of the order shows the difference. The count
is the number of explicit tags with a redirect in any case.
-/
namespace TagTree

namespace Registry

def substitute? (r : Registry) (t : Tag) : Option Tag :=
  if (r.target? t.name).isSome then (r.resolve t.name).value else none

/-- What a tag is to become. -/
def substitute (r : Registry) (t : Tag) : Tag := (r.substitute? t).getD t

theorem substitute_of_none {r : Registry} {t : Tag} (h : r.substitute? t = none) :
    r.substitute t = t := by
  rw [substitute, h, Option.getD_none]

theorem substitute_of_some {r : Registry} {t u : Tag} (h : r.substitute? t = some u) :
    r.substitute t = u := by
  rw [substitute, h, Option.getD_some]

theorem follow_found {r : Registry} {start current : String} {hops : Nat} {t : Tag}
    (h : (r.follow start hops current).value = some t) : ∃ name, r.find? name = some t := by
  induction hops generalizing current with
  | zero => cases h
  | succ hops ih =>
      rw [follow] at h
      cases htarget : r.target? current with
      | none =>
          rw [htarget] at h
          cases h
      | some next =>
          rw [htarget] at h
          dsimp only at h
          cases hfind : r.find? next with
          | some tag =>
              rw [hfind] at h
              exact ⟨next, hfind.trans h⟩
          | none =>
              rw [hfind] at h
              exact ih h

theorem Consistent.isValid_of_resolve {r : Registry} (h : r.Consistent) {name : String} {t : Tag}
    (ht : (r.resolve name).value = some t) : t.isValid := by
  obtain ⟨_, hfound⟩ := follow_found ht
  exact h.isValid_of_find? hfound

theorem Consistent.isValid_substitute? {r : Registry} (h : r.Consistent) {t u : Tag}
    (hu : r.substitute? t = some u) : u.isValid := by
  unfold substitute? at hu
  split at hu
  · exact h.isValid_of_resolve hu
  · cases hu

def replace (r : Registry) (c : Container) (t : Tag) : Container :=
  match r.substitute? t with
  | some new => (c.remove t).2.add new
  | none => c

theorem replacements_value (r : Registry) (ts : List Tag) :
    (r.replacements ts).value = ts.filterMap fun t => (r.substitute? t).map (t, ·) := by
  induction ts with
  | nil => rfl
  | cons t ts ih =>
      rw [replacements, List.filterMap_cons, substitute?]
      split
      · rw [Logged.value_bind]
        cases (r.resolve t.name).value with
        | some new => exact congrArg ((t, new) :: ·) ih
        | none => exact ih
      · exact ih

/-- Redirecting goes through the explicit tags once and counts those that are replaced. -/
theorem redirectContainer_eq (r : Registry) (c : Container) : (r.redirectContainer c).value =
    (c.tags.foldl r.replace c, (c.tags.filter fun t => (r.substitute? t).isSome).length) := by
  have hpairs := replacements_value r c.tags
  have hfold : (c.tags.filterMap fun t => (r.substitute? t).map (t, ·)).foldl
      (fun c p => (c.remove p.1).2.add p.2) c = c.tags.foldl r.replace c := by
    rw [List.foldl_filterMap]
    congr 1
    funext x t
    rw [replace]
    cases r.substitute? t <;> rfl
  have hcount : (c.tags.filterMap fun t => (r.substitute? t).map (t, ·)).length =
      (c.tags.filter fun t => (r.substitute? t).isSome).length := by
    rw [List.length_filterMap_eq_countP, List.countP_eq_length_filter]
    simp only [Option.isSome_map]
  unfold redirectContainer
  rw [Logged.value_bind, hpairs, hcount, hfold]
  rfl

section
variable {r : Registry} (hr : r.Consistent) {c : Container} (hc : c.Sound)
include hc

theorem replace_sound (t : Tag) : (r.replace c t).Sound := by
  unfold replace
  split
  · exact (hc.removeFirst _).add _
  · exact hc

theorem foldl_replace_sound (ts : List Tag) : (ts.foldl r.replace c).Sound := by
  induction ts generalizing c with
  | nil => exact hc
  | cons t ts ih => exact ih (replace_sound hc t)

include hr

theorem mem_replace {t x : Tag} : x ∈ (r.replace c t).tags ↔
    (x ∈ c.tags ∧ (x = t → r.substitute? x = none)) ∨ r.substitute? t = some x := by
  unfold replace
  cases hs : r.substitute? t with
  | none =>
      have hkeep : x = t → r.substitute? x = none := by
        rintro rfl
        exact hs
      constructor
      · intro hx
        exact .inl ⟨hx, hkeep⟩
      · rintro (hx | hx)
        · exact hx.1
        · cases hx
  | some new =>
      have hvalid := hr.isValid_substitute? hs
      have hne : (x = t → r.substitute? x = none) ↔ x ≠ t := by
        constructor
        · rintro h rfl
          rw [h rfl] at hs
          cases hs
        · intro hxt he
          exact absurd he hxt
      dsimp only
      rw [Container.mem_add, hc.mem_remove, hne]
      simp [hvalid, eq_comm]

end

/-- Some tag of `ts` turns into `x`, and `x` is not one that is replaced later. -/
def Settles (r : Registry) (x : Tag) (ts : List Tag) : Prop :=
  ∃ before t after, ts = before ++ t :: after ∧ r.substitute? t = some x ∧
    (x ∈ after → r.substitute? x = none)

theorem settles_cons {r : Registry} {x t : Tag} {ts : List Tag} : Settles r x (t :: ts) ↔
    (r.substitute? t = some x ∧ (x ∈ ts → r.substitute? x = none)) ∨ Settles r x ts := by
  constructor
  · rintro ⟨before, u, after, hsplit, hu, hlater⟩
    cases before with
    | nil =>
        obtain ⟨rfl, rfl⟩ := List.cons.inj hsplit
        exact .inl ⟨hu, hlater⟩
    | cons b before =>
        obtain ⟨rfl, rfl⟩ := List.cons.inj hsplit
        exact .inr ⟨before, u, after, rfl, hu, hlater⟩
  · rintro (⟨ht, hlater⟩ | ⟨before, u, after, rfl, hu, hlater⟩)
    · exact ⟨[], t, ts, rfl, ht, hlater⟩
    · exact ⟨t :: before, u, after, rfl, hu, hlater⟩

theorem mem_foldl_replace {r : Registry} (hr : r.Consistent) {c : Container} (hc : c.Sound)
    {ts : List Tag} {x : Tag} : x ∈ (ts.foldl r.replace c).tags ↔
      (x ∈ c.tags ∧ (x ∈ ts → r.substitute? x = none)) ∨ Settles r x ts := by
  induction ts generalizing c with
  | nil => simp [Settles]
  | cons t ts ih =>
      rw [List.foldl_cons, ih (replace_sound hc t), mem_replace hr hc, settles_cons]
      have hstays : (x ∈ t :: ts → r.substitute? x = none) ↔
          (x = t → r.substitute? x = none) ∧ (x ∈ ts → r.substitute? x = none) := by
        rw [List.mem_cons, or_imp]
      rw [hstays]
      constructor
      · rintro (⟨⟨hx, ht⟩ | ht, hts⟩ | hsettles)
        · exact .inl ⟨hx, ht, hts⟩
        · exact .inr (.inl ⟨ht, hts⟩)
        · exact .inr (.inr hsettles)
      · rintro (⟨hx, ht, hts⟩ | ⟨ht, hts⟩ | hsettles)
        · exact .inl ⟨.inl ⟨hx, ht⟩, hts⟩
        · exact .inl ⟨.inr ht, hts⟩
        · exact .inr hsettles

def Remains (r : Registry) (ts : List Tag) (x : Tag) : Prop :=
  ∃ before t after, ts = before ++ t :: after ∧ r.substitute t = x ∧
    (x ∈ after → r.substitute? x = none)

theorem mem_redirectContainer {r : Registry} (hr : r.Consistent) {c : Container} (hc : c.Sound)
    {x : Tag} : x ∈ (r.redirectContainer c).value.1.tags ↔ Remains r c.tags x := by
  rw [redirectContainer_eq, mem_foldl_replace hr hc]
  constructor
  · rintro (⟨hx, hkept⟩ | ⟨before, t, after, hsplit, ht, hlater⟩)
    · obtain ⟨before, after, hsplit⟩ := List.append_of_mem hx
      exact ⟨before, x, after, hsplit, substitute_of_none (hkept hx), fun _ => hkept hx⟩
    · exact ⟨before, t, after, hsplit, substitute_of_some ht, hlater⟩
  · rintro ⟨before, t, after, hsplit, ht, hlater⟩
    cases hs : r.substitute? t with
    | some new =>
        rw [substitute_of_some hs] at ht
        exact .inr ⟨before, t, after, hsplit, by rw [hs, ht], hlater⟩
    | none =>
        rw [substitute_of_none hs] at ht
        have hx : x ∈ c.tags := by
          rw [hsplit, ← ht]
          exact List.mem_append_right _ List.mem_cons_self
        exact .inl ⟨hx, fun _ => ht ▸ hs⟩

/-- Nothing turns into a tag of `ts` that turns into something else. -/
def Settled (r : Registry) (ts : List Tag) : Prop :=
  ∀ t ∈ ts, r.substitute t ∈ ts → r.substitute (r.substitute t) = r.substitute t

section
variable {r : Registry} (hr : r.Consistent) {c : Container} (hc : c.Sound)
include hr hc

theorem mem_redirectContainer_of_settled (hs : Settled r c.tags) {x : Tag} :
    x ∈ (r.redirectContainer c).value.1.tags ↔ ∃ t ∈ c.tags, r.substitute t = x := by
  rw [mem_redirectContainer hr hc]
  constructor
  · rintro ⟨before, t, after, hsplit, ht, _⟩
    refine ⟨t, ?_, ht⟩
    rw [hsplit]
    exact List.mem_append_right _ List.mem_cons_self
  · rintro ⟨t, htags, ht⟩
    by_cases hx : x ∈ c.tags
    · -- A tag that stays what it is settles with its own step, as it stands there only once.
      obtain ⟨before, after, hsplit⟩ := List.append_of_mem hx
      have hself : r.substitute x = x := by
        have hfixed := hs t htags
        rw [ht] at hfixed
        exact hfixed hx
      have honce : x ∉ after := by
        have hnodup := hc.nodup
        rw [hsplit, List.nodup_append] at hnodup
        exact (List.nodup_cons.mp hnodup.2.1).1
      exact ⟨before, x, after, hsplit, hself, fun hmem => absurd hmem honce⟩
    · obtain ⟨before, after, hsplit⟩ := List.append_of_mem htags
      refine ⟨before, t, after, hsplit, ht, ?_⟩
      intro hmem
      apply absurd _ hx
      rw [hsplit]
      exact List.mem_append_right _ (List.mem_cons_of_mem _ hmem)

theorem not_mem_redirectContainer_last {ts : List Tag} {u : Tag} (htags : c.tags = ts ++ [u])
    (hu : r.substitute u ≠ u) : u ∉ (r.redirectContainer c).value.1.tags := by
  intro hmem
  obtain ⟨before, t, after, hsplit, ht, hlater⟩ := (mem_redirectContainer hr hc).mp hmem
  rw [htags] at hsplit
  rcases List.eq_nil_or_concat' after with rfl | ⟨init, last, rfl⟩
  · obtain ⟨_, hlast⟩ := List.append_inj' hsplit rfl
    rw [← (List.cons.inj hlast).1] at ht
    exact hu ht
  · have hassoc : ts ++ [u] = (before ++ t :: init) ++ [last] := by
      rw [hsplit, List.append_assoc, List.cons_append]
    obtain ⟨_, hlast⟩ := List.append_inj' hassoc rfl
    have hkept := hlater (by simp [(List.cons.inj hlast).1])
    exact hu (substitute_of_none hkept)

theorem settled_of_redirectContainer
    (h : ∀ d : Container, d.Sound → (∀ x, x ∈ d.tags ↔ x ∈ c.tags) →
      ∀ x, x ∈ (r.redirectContainer d).value.1.tags ↔ ∃ t ∈ c.tags, r.substitute t = x) :
    Settled r c.tags := by
  intro t ht hu
  by_contra hmoved
  let d := Container.rebuilt (c.tags.erase (r.substitute t) ++ [r.substitute t])
  have hperm : d.tags.Perm c.tags :=
    (List.perm_append_singleton ..).trans (List.perm_cons_erase hu).symm
  have hsame : ∀ x, x ∈ d.tags ↔ x ∈ c.tags := fun x => hperm.mem_iff
  have hd : d.Sound :=
    Container.rebuilt_sound (fun x hx => hc.valid x ((hsame x).mp hx)) (hperm.nodup_iff.mpr hc.nodup)
  apply not_mem_redirectContainer_last hr hd rfl hmoved
  exact (h d hd hsame _).mpr ⟨t, ht, rfl⟩

end

/-- For every order of the tags of a container: the number of tags replaced and what is left. What is
left is the simultaneous replacement for all orders if the tags are settled, and only then. -/
theorem redirectContainer_substitutes {r : Registry} (hr : Reachable r) {c : Container}
    (hc : c.Sound) :
    (∀ d : Container, d.Sound → (∀ x, x ∈ d.tags ↔ x ∈ c.tags) →
      (r.redirectContainer d).value.1.Sound ∧
      (r.redirectContainer d).value.2 = (c.tags.filter fun t => (r.substitute? t).isSome).length ∧
      ∀ x, x ∈ (r.redirectContainer d).value.1.tags ↔ Remains r d.tags x) ∧
    ((∀ d : Container, d.Sound → (∀ x, x ∈ d.tags ↔ x ∈ c.tags) →
        ∀ x, x ∈ (r.redirectContainer d).value.1.tags ↔ ∃ t ∈ c.tags, r.substitute t = x) ↔
      Settled r c.tags) := by
  constructor
  · intro d hd hsame
    have hperm := (List.perm_ext_iff_of_nodup hd.nodup hc.nodup).mpr hsame
    have hcount := (hperm.filter fun t => (r.substitute? t).isSome).length_eq
    refine ⟨?_, ?_, fun x => mem_redirectContainer hr.consistent hd⟩
    · rw [redirectContainer_eq]
      exact foldl_replace_sound hd _
    · rw [redirectContainer_eq]
      exact hcount
  · constructor
    · exact settled_of_redirectContainer hr.consistent hc
    · intro hs d hd hsame x
      have hsettled : Settled r d.tags := by
        intro t ht hu
        exact hs t ((hsame t).mp ht) ((hsame _).mp hu)
      rw [mem_redirectContainer_of_settled hr.consistent hd hsettled]
      simp only [hsame]

/-- A redirect of two steps, and a tag that has none. -/
theorem redirectContainer_substitutes_two_steps :
    let r := (empty {}).run [.addNatives [⟨"A", ""⟩, ⟨"B", ""⟩, ⟨"C", ""⟩],
      .addRedirects [⟨"A", "X"⟩, ⟨"X", "C"⟩]]
    let c := Container.rebuilt [⟨"A"⟩, ⟨"B"⟩]
    c.Sound ∧ Settled r c.tags ∧ (r.redirectContainer c).value = (.rebuilt [⟨"B"⟩, ⟨"C"⟩], 1) ∧
      ∀ x, x ∈ (r.redirectContainer c).value.1.tags ↔ ∃ t ∈ c.tags, r.substitute t = x := by
  intro r c
  have hr : Reachable r := Reachable.run (.origin (.empty _)) _
  have hc : c.Sound := Container.rebuilt_sound (by decide) (by decide)
  have hs : Settled r c.tags := by
    unfold Settled
    decide +kernel
  exact ⟨hc, hs, by decide +kernel, (redirectContainer_substitutes hr hc).2.mpr hs c hc fun _ => .rfl⟩

/-- Of two tags, the first turns into the second and the second into a third: only the third is left,
or both replacements are, as the tags stand. -/
theorem redirectContainer_chain :
    let r := (empty {}).run [.addNatives [⟨"A", ""⟩, ⟨"B", ""⟩, ⟨"C", ""⟩],
      .addRedirects [⟨"A", "B"⟩, ⟨"B", "C"⟩]]
    (r.redirectContainer (.rebuilt [⟨"A"⟩, ⟨"B"⟩])).value = (.rebuilt [⟨"C"⟩], 2) ∧
      (r.redirectContainer (.rebuilt [⟨"B"⟩, ⟨"A"⟩])).value = (.rebuilt [⟨"C"⟩, ⟨"B"⟩], 2) ∧
      [⟨"A"⟩, ⟨"B"⟩].map r.substitute = [⟨"B"⟩, ⟨"C"⟩] := by
  decide +kernel

end Registry
end TagTree
