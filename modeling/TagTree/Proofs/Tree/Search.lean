import Mathlib.Data.List.Nodup
import TagTree.Tree

/-!
# Finding a child

Halving a window of increasing texts finds a text that is there, and the place
where one would go if it is not. On a node whose children increase by segment,
`findChild` therefore answers with the child of that segment exactly if there is
one.

The search halves a window and is bounded by the number of texts in it. Two
lemmas describe it without its steps: a success names a position at which the
text stands, and a failure names a position with smaller texts before it and
greater ones from it on. Both are proved by induction on the bound, with the
window generalized, and neither asks for the texts to be distinct.

With the segments of a node's children in increasing order, the position of a
failure is the one place where a child can be put so that they stay in order.
-/
namespace TagTree

section Halving
variable {text : Nat → String} {key : String}

theorem bisect_ok {fuel lo hi k : Nat} (h : bisect text key fuel lo hi = .ok k) :
    lo ≤ k ∧ k < hi ∧ text k = key := by
  induction fuel generalizing lo hi with
  | zero => simp [bisect] at h
  | succ fuel ih =>
      rw [bisect] at h
      split at h
      · rename_i hlt
        dsimp only at h
        split at h
        · have hk := ih h
          exact ⟨by omega, hk.2⟩
        · rename_i hlow
          split at h
          · have hk := ih h
            exact ⟨hk.1, by omega, hk.2.2⟩
          · rename_i hhigh
            cases h
            have he := String.le_antisymm (String.not_lt.mp hhigh) (String.not_lt.mp hlow)
            exact ⟨by omega, by omega, he⟩
      · cases h

/-- A search that fails has left the smaller texts on its left and the greater ones on its right. -/
theorem bisect_error {fuel lo hi k : Nat} (hfuel : hi - lo ≤ fuel) (hle : lo ≤ hi)
    (hinc : ∀ i j, lo ≤ i → i < j → j < hi → text i < text j)
    (h : bisect text key fuel lo hi = .error k) :
    lo ≤ k ∧ k ≤ hi ∧ (∀ j, lo ≤ j → j < k → text j < key) ∧
      ∀ j, k ≤ j → j < hi → key < text j := by
  induction fuel generalizing lo hi with
  | zero =>
      cases h
      exact ⟨Nat.le_refl _, hle, by omega, by omega⟩
  | succ fuel ih =>
      rw [bisect] at h
      split at h
      · rename_i hlt
        dsimp only at h
        split at h
        · rename_i hlow
          obtain ⟨h₁, h₂, h₃, h₄⟩ :=
            ih (by omega) (by omega) (fun i j hi => hinc i j (by omega)) h
          refine ⟨by omega, h₂, ?_, h₄⟩
          intro j hj hjk
          by_cases hm : (lo + hi) / 2 + 1 ≤ j
          · exact h₃ j hm hjk
          · by_cases he : j = (lo + hi) / 2
            · exact he ▸ hlow
            · exact String.lt_trans (hinc j ((lo + hi) / 2) hj (by omega) (by omega)) hlow
        · split at h
          · rename_i hhigh
            obtain ⟨h₁, h₂, h₃, h₄⟩ :=
              ih (by omega) (by omega) (fun i j hi hij hj => hinc i j hi hij (by omega)) h
            refine ⟨h₁, by omega, h₃, ?_⟩
            intro j hj hjh
            by_cases hm : j < (lo + hi) / 2
            · exact h₄ j hj hm
            · by_cases he : j = (lo + hi) / 2
              · exact he ▸ hhigh
              · exact String.lt_trans hhigh (hinc ((lo + hi) / 2) j (by omega) (by omega) hjh)
          · cases h
      · cases h
        exact ⟨Nat.le_refl _, hle, by omega, by omega⟩

end Halving

namespace Tree

def childSegments (t : Tree) (p : Nat) : List String :=
  (t.node p).children.map fun c => (t.node c).segment

theorem childSegments_lt {t : Tree} {p i j : Nat} (hsorted : (t.childSegments p).Pairwise (· < ·))
    (hij : i < j) (hj : j < (t.node p).children.length) :
    (t.node ((t.node p).children.getD i 0)).segment <
      (t.node ((t.node p).children.getD j 0)).segment := by
  rw [childSegments, List.pairwise_map] at hsorted
  have hi : i < (t.node p).children.length := Nat.lt_trans hij hj
  have hlt := List.pairwise_iff_getElem.mp hsorted i j hi hj hij
  simpa [List.getD_eq_getElem?_getD, hi, hj] using hlt

theorem findChild_ok {t : Tree} {p c : Nat} {s : String} (h : t.findChild p s = .ok c) :
    c ∈ (t.node p).children ∧ (t.node c).segment = s := by
  dsimp only [findChild] at h
  split at h
  · rename_i k hk
    obtain ⟨_, hlt, hs⟩ := bisect_ok hk
    cases h
    refine ⟨?_, hs⟩
    rw [List.getD_eq_getElem?_getD, List.getElem?_eq_getElem hlt]
    exact List.getElem_mem hlt
  · cases h

theorem findChild_error {t : Tree} {p k : Nat} {s : String}
    (hsorted : (t.childSegments p).Pairwise (· < ·)) (h : t.findChild p s = .error k) :
    ∃ before after, (t.node p).children = before ++ after ∧ before.length = k ∧
      (∀ c ∈ before, (t.node c).segment < s) ∧ ∀ c ∈ after, s < (t.node c).segment := by
  dsimp only [findChild] at h
  split at h
  · cases h
  · rename_i j hj
    cases h
    obtain ⟨_, hk, hlow, hhigh⟩ := bisect_error (Nat.le_refl _) (Nat.zero_le _)
      (fun _ _ _ hij hj => childSegments_lt hsorted hij hj) hj
    refine ⟨(t.node p).children.take k, (t.node p).children.drop k,
      (List.take_append_drop ..).symm, by simp [hk], ?_, ?_⟩
    · intro c hc
      obtain ⟨i, hi, rfl⟩ := List.mem_iff_getElem.mp hc
      have hik : i < k ∧ i < (t.node p).children.length := by
        rw [List.length_take] at hi
        omega
      have hl := hlow i (Nat.zero_le _) hik.1
      simpa [List.getD_eq_getElem?_getD, hik.2] using hl
    · intro c hc
      obtain ⟨i, hi, rfl⟩ := List.mem_iff_getElem.mp hc
      have hik : k + i < (t.node p).children.length := by
        rw [List.length_drop] at hi
        omega
      have hh := hhigh (k + i) (by omega) hik
      simpa [List.getD_eq_getElem?_getD, hik] using hh

theorem eq_of_segment_eq {t : Tree} {p c d : Nat}
    (hsorted : (t.childSegments p).Pairwise (· < ·)) (hc : c ∈ (t.node p).children)
    (hd : d ∈ (t.node p).children) (h : (t.node c).segment = (t.node d).segment) : c = d := by
  have hnodup : (t.childSegments p).Nodup := by
    refine hsorted.imp ?_
    rintro a _ hlt rfl
    exact String.lt_irrefl _ hlt
  exact List.inj_on_of_nodup_map hnodup hc hd h

theorem findChild_eq_ok_iff {t : Tree} {p c : Nat} {s : String}
    (hsorted : (t.childSegments p).Pairwise (· < ·)) :
    t.findChild p s = .ok c ↔ c ∈ (t.node p).children ∧ (t.node c).segment = s := by
  constructor
  · exact findChild_ok
  · rintro ⟨hc, hs⟩
    cases h : t.findChild p s with
    | ok d =>
        obtain ⟨hd, hds⟩ := findChild_ok h
        rw [eq_of_segment_eq hsorted hd hc (hds.trans hs.symm)]
    | error k =>
        obtain ⟨before, after, he, _, hb, ha⟩ := findChild_error hsorted h
        rw [he] at hc
        rcases List.mem_append.mp hc with hc | hc
        · exact absurd (hb c hc) (hs ▸ String.lt_irrefl _)
        · exact absurd (ha c hc) (hs ▸ String.lt_irrefl _)

end Tree
end TagTree
