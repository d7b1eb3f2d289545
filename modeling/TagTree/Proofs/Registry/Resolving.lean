import TagTree.Proofs.Registry.Contract

/-!
# Following redirects

From every name a chain of redirects leads on, which may end, run into a circle
or be longer than a lookup follows it. A lookup finds the first registered name
of the chain within its bound. It reports the chain exactly if there is none and
a further redirect is left, so circles are reported and chains that end are not.
The redirects of a registry are those that were accepted on the way to it.

`hop` is the chain of a name without a bound and without a look at what is
registered. `Lands` says that the chain reaches a registered name after so many
redirects, and the walk that a lookup makes finds the least such number within
its bound. Both directions are proved by induction on the bound, with the start
of the walk generalized, together with the condition for a report.

The second part is about where redirects come from. An operation that adds
redirects appends those it accepts, which depends on the redirects alone, and no
other operation touches them. So the redirects of a registry are computed from
its history, and the target of a name is that of the first redirect accepted for
it.
-/
namespace TagTree.Registry

def hop (r : Registry) (name : String) : Nat → Option String
  | 0 => some name
  | k + 1 => (r.hop name k).bind r.target?

def Lands (r : Registry) (name : String) (k : Nat) : Prop :=
  ∃ m, r.hop name k = some m ∧ r.contains m

instance (r : Registry) (name : String) (k : Nat) : Decidable (r.Lands name k) :=
  decidable_of_iff ((r.hop name k).any r.contains) (Option.any_eq_true _ _)

section
variable {r : Registry} {name : String}

theorem hop_of_target {next : String} (h : r.target? name = some next) (k : Nat) :
    r.hop name (k + 1) = r.hop next k := by
  induction k with
  | zero => exact h
  | succ k ih => exact congrArg (Option.bind · r.target?) ih

/-- A chain that has ended does not go on. -/
theorem hop_eq_none {k j : Nat} (h : r.hop name k = none) (hkj : k ≤ j) : r.hop name j = none := by
  induction hkj with
  | refl => exact h
  | step _ ih => exact congrArg (Option.bind · r.target?) ih

theorem hop_isSome_of_le {k j : Nat} (h : (r.hop name j).isSome) (hkj : k ≤ j) :
    (r.hop name k).isSome := by
  by_contra hnone
  rw [hop_eq_none (Option.not_isSome_iff_eq_none.mp hnone) hkj] at h
  cases h

theorem hop_succ_isSome {k : Nat} : (r.hop name (k + 1)).isSome ↔
    ∃ m, r.hop name k = some m ∧ (r.target? m).isSome := by
  rw [hop]
  cases r.hop name k <;> simp

/-- A chain that comes back to where it was never ends. -/
theorem hop_isSome_of_circle {i p : Nat} (hp : 0 < p) (hi : (r.hop name i).isSome)
    (hcircle : r.hop name (i + p) = r.hop name i) (k : Nat) : (r.hop name k).isSome := by
  have hshift : ∀ j, r.hop name (i + p + j) = r.hop name (i + j) := by
    intro j
    induction j with
    | zero => exact hcircle
    | succ j ih => exact congrArg (Option.bind · r.target?) ih
  have hround : ∀ n, r.hop name (i + n * p) = r.hop name i := by
    intro n
    induction n with
    | zero => rw [Nat.zero_mul, Nat.add_zero]
    | succ n ih => rw [Nat.succ_mul, Nat.add_comm (n * p), ← Nat.add_assoc, hshift, ih]
  have hk : k ≤ i + k * p := Nat.le_trans (Nat.le_mul_of_pos_right k hp) (Nat.le_add_left _ _)
  rw [← hround k] at hi
  exact hop_isSome_of_le hi hk

theorem lands_succ {next : String} (h : r.target? name = some next) {k : Nat} :
    r.Lands name (k + 1) ↔ r.Lands next k := by
  rw [Lands, Lands, hop_of_target h]

theorem not_lands_succ (h : r.target? name = none) (k : Nat) : ¬ r.Lands name (k + 1) := by
  rintro ⟨m, hm, _⟩
  have hone : r.hop name 1 = none := h
  rw [hop_eq_none hone (Nat.le_add_left 1 k)] at hm
  cases hm

theorem lands_zero : r.Lands name 0 ↔ r.contains name := by
  constructor
  · rintro ⟨m, hm, hc⟩
    cases hm
    exact hc
  · exact fun hc => ⟨name, rfl, hc⟩

end

section
variable {r : Registry} (h : r.Consistent) (start : String) {current : String} {hops : Nat}
include h

theorem follow_succ : r.follow start (hops + 1) current =
    match r.target? current with
    | none => pure none
    | some next =>
      if r.contains next then pure (some ⟨next⟩) else r.follow start hops next := by
  rw [follow]
  cases r.target? current with
  | none => rfl
  | some next =>
      dsimp only
      rw [h.find?_eq]
      by_cases hnext : r.contains next <;> simp [hnext]

/-- The walk ends at the first registered name among the next `hops`. -/
theorem follow_eq_some {t : Tag} : (r.follow start hops current).value = some t ↔
    ∃ k < hops, r.hop current (k + 1) = some t.name ∧ r.contains t.name ∧
      ∀ j < k, ¬ r.Lands current (j + 1) := by
  induction hops generalizing current with
  | zero => simp [follow]
  | succ hops ih =>
      rw [follow_succ h]
      cases htarget : r.target? current with
      | none =>
          refine iff_of_false (Option.some_ne_none t).symm ?_
          rintro ⟨k, _, hk, hc, _⟩
          exact not_lands_succ htarget k ⟨t.name, hk, hc⟩
      | some next =>
          dsimp only
          have hone : r.hop current 1 = some next := htarget
          by_cases hnext : r.contains next
          · rw [if_pos hnext]
            constructor
            · intro ht
              cases ht
              exact ⟨0, Nat.succ_pos _, hone, hnext, fun j hj => absurd hj (Nat.not_lt_zero j)⟩
            · rintro ⟨k, _, hk, _, hfirst⟩
              rcases Nat.eq_zero_or_pos k with rfl | hpos
              · cases hone.symm.trans hk
                rfl
              · exact absurd ⟨next, hone, hnext⟩ (hfirst 0 hpos)
          · rw [if_neg hnext, ih]
            constructor
            · rintro ⟨k, hk, hhop, hc, hfirst⟩
              refine ⟨k + 1, Nat.succ_lt_succ hk, ?_, hc, ?_⟩
              · rwa [hop_of_target htarget]
              · intro j hj
                rw [lands_succ htarget]
                cases j with
                | zero => rwa [lands_zero]
                | succ j => exact hfirst j (Nat.lt_of_succ_lt_succ hj)
            · rintro ⟨k, hk, hhop, hc, hfirst⟩
              rw [hop_of_target htarget] at hhop
              cases k with
              | zero =>
                  cases hhop
                  exact absurd hc hnext
              | succ k =>
                  refine ⟨k, Nat.lt_of_succ_lt_succ hk, hhop, hc, ?_⟩
                  intro j hj
                  rw [← lands_succ htarget]
                  exact hfirst (j + 1) (Nat.succ_lt_succ hj)

/-- The walk is reported if none of the next `hops` names is registered and the last one leads on. -/
theorem follow_events : (r.follow start hops current).events =
    if (∀ k < hops, ¬ r.Lands current (k + 1)) ∧ (r.hop current (hops + 1)).isSome then
      [.redirectUnsettled start r.settings.maxHops] else [] := by
  induction hops generalizing current with
  | zero =>
      have hone : r.hop current 1 = r.target? current := rfl
      simp [follow, Logged.emitIf, hone]
  | succ hops ih =>
      rw [follow_succ h]
      cases htarget : r.target? current with
      | none =>
          have hend : r.hop current (hops + 1 + 1) = none :=
            hop_eq_none (k := 1) htarget (Nat.le_add_left _ _)
          simp [hend]
      | some next =>
          dsimp only
          by_cases hnext : r.contains next
          · have hlands : r.Lands current 1 := ⟨next, htarget, hnext⟩
            rw [if_pos hnext, if_neg]
            · rfl
            · rintro ⟨hnone, _⟩
              exact hnone 0 (Nat.succ_pos _) hlands
          · have hsame : (∀ k < hops + 1, ¬ r.Lands current (k + 1)) ↔
                ∀ k < hops, ¬ r.Lands next (k + 1) := by
              simp only [lands_succ htarget]
              rw [Nat.forall_lt_succ_left]
              simp [lands_zero, hnext]
            simp only [if_neg hnext, ih, hsame, hop_of_target htarget]

end

def Unresolved (r : Registry) (name : String) : Prop :=
  ∀ k, 1 ≤ k → k ≤ r.settings.maxHops → ¬ r.Lands name k

def LeadsOn (r : Registry) (name : String) : Prop :=
  ∃ m, r.hop name r.settings.maxHops = some m ∧ (r.target? m).isSome

theorem unresolved_iff {r : Registry} {name : String} :
    r.Unresolved name ↔ ∀ k < r.settings.maxHops, ¬ r.Lands name (k + 1) := by
  constructor
  · intro h k hk
    exact h (k + 1) (Nat.le_add_left 1 k) hk
  · intro h k hone hk
    obtain ⟨k, rfl⟩ := Nat.exists_eq_add_of_le' hone
    exact h k hk

/-- What a lookup of a name makes of the chain that leads on from it. -/
structure Resolution (r : Registry) (name : String) : Prop where
  /-- The first registered name within the bound is found. -/
  found : ∀ t, (r.resolve name).value = some t ↔ ∃ k, 1 ≤ k ∧ k ≤ r.settings.maxHops ∧
    r.hop name k = some t.name ∧ r.contains t.name ∧ ∀ j, 1 ≤ j → j < k → ¬ r.Lands name j
  unresolved : (r.resolve name).value = none ↔ r.Unresolved name
  reported : r.Unresolved name → r.LeadsOn name →
    (r.resolve name).events = [.redirectUnsettled name r.settings.maxHops]
  silent : ¬ (r.Unresolved name ∧ r.LeadsOn name) → (r.resolve name).events = []
  /-- A chain that comes back to a name never ends. -/
  circular : ∀ i p, 0 < p → (r.hop name i).isSome → r.hop name (i + p) = r.hop name i →
    r.Unresolved name → (r.resolve name).events = [.redirectUnsettled name r.settings.maxHops]
  overlong : ∀ k, r.settings.maxHops < k → (r.hop name k).isSome → r.Unresolved name →
    (r.resolve name).events = [.redirectUnsettled name r.settings.maxHops]
  ended : ∀ k ≤ r.settings.maxHops + 1, r.hop name k = none → (r.resolve name).events = []
  requested : ∀ report, (r.requestIf report name).value.2 =
    if name = "" ∨ name = Name.none then .invalid
    else if r.contains name then ⟨name⟩
    else (r.resolve name).value.getD .invalid

section
variable {r : Registry} (h : r.Consistent) (name : String)
include h

theorem Consistent.resolve_eq_some {t : Tag} : (r.resolve name).value = some t ↔
    ∃ k, 1 ≤ k ∧ k ≤ r.settings.maxHops ∧ r.hop name k = some t.name ∧ r.contains t.name ∧
      ∀ j, 1 ≤ j → j < k → ¬ r.Lands name j := by
  rw [resolve, follow_eq_some h]
  constructor
  · rintro ⟨k, hk, hhop, hc, hfirst⟩
    refine ⟨k + 1, Nat.le_add_left 1 k, hk, hhop, hc, ?_⟩
    intro j hone hj
    obtain ⟨j, rfl⟩ := Nat.exists_eq_add_of_le' hone
    exact hfirst j (Nat.lt_of_succ_lt_succ hj)
  · rintro ⟨k, hone, hk, hhop, hc, hfirst⟩
    obtain ⟨k, rfl⟩ := Nat.exists_eq_add_of_le' hone
    exact ⟨k, hk, hhop, hc, fun j hj => hfirst (j + 1) (Nat.le_add_left 1 j) (Nat.succ_lt_succ hj)⟩

theorem Consistent.resolve_eq_none : (r.resolve name).value = none ↔ r.Unresolved name := by
  constructor
  · intro hnone k hone hk hlands
    -- A least place on which the chain lands would have been found.
    classical
    have hex : ∃ k, 1 ≤ k ∧ r.Lands name k := ⟨k, hone, hlands⟩
    obtain ⟨hfirst, m, hm, hc⟩ := Nat.find_spec hex
    have hfound := (h.resolve_eq_some name (t := ⟨m⟩)).mpr ⟨Nat.find hex, hfirst,
      Nat.le_trans (Nat.find_min' hex ⟨hone, hlands⟩) hk, hm, hc,
      fun j hj hlt hland => Nat.find_min hex hlt ⟨hj, hland⟩⟩
    rw [hnone] at hfound
    cases hfound
  · intro hnone
    cases hfound : (r.resolve name).value with
    | none => rfl
    | some t =>
        obtain ⟨k, hone, hk, hm, hc, _⟩ := (h.resolve_eq_some name).mp hfound
        exact absurd ⟨t.name, hm, hc⟩ (hnone k hone hk)

theorem Consistent.requestIf_value (report : Bool) : (r.requestIf report name).value.2 =
    if name = "" ∨ name = Name.none then .invalid
    else if r.contains name then ⟨name⟩
    else (r.resolve name).value.getD .invalid := by
  rw [requestIf_eq_lookup, lookup]
  split
  · rfl
  · rw [h.find?_eq]
    by_cases hc : r.contains name <;> simp [hc]

theorem Consistent.resolution : Resolution r name := by
  have hiff : ((∀ k < r.settings.maxHops, ¬ r.Lands name (k + 1)) ∧
      (r.hop name (r.settings.maxHops + 1)).isSome) ↔ r.Unresolved name ∧ r.LeadsOn name :=
    and_congr unresolved_iff.symm hop_succ_isSome
  have hreport : r.Unresolved name → r.LeadsOn name →
      (r.resolve name).events = [.redirectUnsettled name r.settings.maxHops] := by
    intro hnone hon
    rw [resolve, follow_events h, if_pos (hiff.mpr ⟨hnone, hon⟩)]
  have hsilent : ¬ (r.Unresolved name ∧ r.LeadsOn name) → (r.resolve name).events = [] := by
    intro hnot
    rw [resolve, follow_events h, if_neg (mt hiff.mp hnot)]
  constructor
  case found => exact fun t => h.resolve_eq_some name
  case unresolved => exact h.resolve_eq_none name
  case reported => exact hreport
  case silent => exact hsilent
  case circular =>
      intro i p hp hi hcircle hnone
      exact hreport hnone (hop_succ_isSome.mp (hop_isSome_of_circle hp hi hcircle _))
  case overlong =>
      intro k hk hsome hnone
      exact hreport hnone (hop_succ_isSome.mp (hop_isSome_of_le hsome hk))
  case ended =>
      intro k hk hend
      apply hsilent
      rintro ⟨_, hon⟩
      rw [LeadsOn, ← hop_succ_isSome, hop_eq_none hend hk] at hon
      cases hon
  case requested => exact h.requestIf_value name

end

/-- Those of several redirects that are accepted when they are added one after the other. -/
def takenRedirects (r : Registry) : List Redirect → List Redirect
  | [] => []
  | d :: rest =>
    let later := (r.addRedirect d).value.1.takenRedirects rest
    if (r.addRedirect d).value.2 then d :: later else later

def Operation.takenRedirects (r : Registry) : Operation → List Redirect
  | .addRedirect d => r.takenRedirects [d]
  | .addRedirects ds => r.takenRedirects ds
  | _ => []

def redirectsBy (r : Registry) : List Operation → List Redirect
  | [] => []
  | op :: ops => op.takenRedirects r ++ redirectsBy (op.apply r).value ops

def Origin.takenRedirects : Origin → List Redirect
  | .empty _ => []
  | .ofSettings settings => (Registry.empty settings).takenRedirects settings.redirects
  | .ofConfiguration c => (Registry.empty c.settings).takenRedirects c.settings.redirects

/-- The redirects accepted in a history, in order. -/
def History.takenRedirects (h : History) : List Redirect :=
  h.origin.takenRedirects ++ redirectsBy h.origin.registry.value h.operations

theorem addRedirect_answer (r : Registry) (d : Redirect) :
    (r.addRedirect d).value.2 = true ↔ d.old ≠ d.new ∧ r.target? d.old = none := by
  unfold addRedirect
  split
  · rename_i hself
    simp [hself]
  · rename_i hself
    cases htarget : r.target? d.old <;> simp [hself]

theorem addRedirect_value (r : Registry) (d : Redirect) : (r.addRedirect d).value.1 =
    { r with redirects := r.redirects ++ if (r.addRedirect d).value.2 then [d] else [] } := by
  unfold addRedirect
  split
  · simp
  · split
    · simp
    · rfl

theorem addRedirect_redirects (r : Registry) (d : Redirect) : (r.addRedirect d).value.1.redirects =
    r.redirects ++ if (r.addRedirect d).value.2 then [d] else [] :=
  congrArg Registry.redirects (addRedirect_value r d)

/-- Adding redirects changes nothing but the redirects. -/
theorem addRedirects_value (r : Registry) (ds : List Redirect) : (r.addRedirects ds).value =
    { r with redirects := r.redirects ++ r.takenRedirects ds } := by
  induction ds generalizing r with
  | nil => simp [addRedirects, takenRedirects]
  | cons d ds ih =>
      have htaken : (r.addRedirect d).value.1.redirects ++
          (r.addRedirect d).value.1.takenRedirects ds = r.redirects ++ r.takenRedirects (d :: ds) := by
        rw [addRedirect_redirects, takenRedirects, List.append_assoc]
        cases (r.addRedirect d).value.2 <;> rfl
      rw [addRedirects, Logged.value_bind, ih, htaken, addRedirect_value]

theorem addRedirects_redirects (r : Registry) (ds : List Redirect) :
    (r.addRedirects ds).value.redirects = r.redirects ++ r.takenRedirects ds :=
  congrArg Registry.redirects (addRedirects_value r ds)

theorem addRedirect_congr {r r' : Registry} (h : r'.redirects = r.redirects) (d : Redirect) :
    (r'.addRedirect d).value.2 = (r.addRedirect d).value.2 ∧
      (r'.addRedirect d).value.1.redirects = (r.addRedirect d).value.1.redirects := by
  have hanswer : (r'.addRedirect d).value.2 = (r.addRedirect d).value.2 := by
    apply Bool.eq_iff_iff.mpr
    rw [addRedirect_answer, addRedirect_answer, target?, target?, h]
  exact ⟨hanswer, by rw [addRedirect_redirects, addRedirect_redirects, h, hanswer]⟩

theorem takenRedirects_congr {r r' : Registry} (h : r'.redirects = r.redirects)
    (ds : List Redirect) : r'.takenRedirects ds = r.takenRedirects ds := by
  induction ds generalizing r r' with
  | nil => rfl
  | cons d ds ih =>
      obtain ⟨hanswer, hrest⟩ := addRedirect_congr h d
      rw [takenRedirects, takenRedirects, hanswer, ih hrest]

theorem load_redirects (r : Registry) (source : String) (kind : SourceKind) (rows : List Row) :
    (r.load source kind rows).value.1.redirects = r.redirects := by
  cases hf : r.finalized with
  | false => exact (SameButRows.load hf source kind rows).redirects
  | true =>
      have hsame := (SameButRows.withSource r source kind).trans (.loadRows _ source rows)
      rw [load_of_finalized hf]
      dsimp only
      split <;> exact hsame.redirects

theorem loadLists_redirects (r : Registry) (lists : List TagList) :
    (r.loadLists lists).value.redirects = r.redirects := by
  induction lists generalizing r with
  | nil => rfl
  | cons list lists ih => exact (ih _).trans (load_redirects r list.name .tagList list.rows)

theorem addNatives_redirects (r : Registry) (rows : List Row) :
    (r.addNatives rows).value.1.redirects = r.redirects := by
  induction rows generalizing r with
  | nil => rfl
  | cons row rows ih =>
      have hstep := (SameButRows.addNative r row).redirects
      by_cases hgood : r.finalized = false ∧ Name.Valid row.tag
      · rw [addNatives_of_accepted hgood.1 hgood.2, ih, hstep]
      · rw [addNatives_of_refused hgood, hstep]

theorem finalize_redirects (r : Registry) : r.finalize.value.redirects = r.redirects := by
  unfold finalize
  split <;> rfl

theorem ofConfiguration_redirects (c : Configuration) : (ofConfiguration c).value.redirects =
    (empty c.settings).takenRedirects c.settings.redirects := by
  unfold ofConfiguration
  dsimp only
  split
  · have hloaded := (loadLists_redirects _ c.lists).trans
      (load_redirects (empty c.settings) Source.settings .defaultList c.settings.rows)
    rw [Logged.value_bind, Logged.value_bind, addRedirects_redirects, takenRedirects_congr hloaded,
      hloaded]
    rfl
  · exact (addRedirects_redirects _ _).trans (List.nil_append _)

theorem Origin.registry_redirects (o : Origin) : o.registry.value.redirects = o.takenRedirects := by
  cases o with
  | empty settings => rfl
  | ofSettings settings => exact ofConfiguration_redirects ⟨settings, []⟩
  | ofConfiguration c => exact ofConfiguration_redirects c

theorem Operation.apply_redirects (r : Registry) (op : Operation) :
    (op.apply r).value.redirects = r.redirects ++ op.takenRedirects r := by
  have hnone : r.redirects ++ [] = r.redirects := List.append_nil _
  cases op with
  | load source kind rows => exact (load_redirects r source kind rows).trans hnone.symm
  | addRow source row => exact (load_redirects r source .dataTable [row]).trans hnone.symm
  | addNative row => exact (SameButRows.addNative r row).redirects.trans hnone.symm
  | addNatives rows => exact (addNatives_redirects r rows).trans hnone.symm
  | addRedirect d => exact addRedirects_redirects r [d]
  | addRedirects ds => exact addRedirects_redirects r ds
  | finalize => exact (finalize_redirects r).trans hnone.symm
  | rebuild => exact (rebuild_flags r).1.trans hnone.symm
  | request name => exact (request_same r name).redirects.trans hnone.symm

theorem run_redirects (r : Registry) (ops : List Operation) :
    (r.run ops).redirects = r.redirects ++ r.redirectsBy ops := by
  induction ops generalizing r with
  | nil => exact (List.append_nil _).symm
  | cons op ops ih => rw [run, ih, op.apply_redirects, redirectsBy, List.append_assoc]

/-- The redirects of a registry are those accepted on the way, whatever else was done. -/
theorem History.redirects_eq (h : History) : h.registry.redirects = h.takenRedirects := by
  rw [registry, run_redirects, h.origin.registry_redirects, takenRedirects]

/-- Lookups in the registry of a history, what it takes to add a redirect to it, and the target that
each name has: that of the first redirect accepted for it. -/
theorem redirects_resolved (h : History) : (∀ name, Resolution h.registry name) ∧
    (∀ d, (h.registry.addRedirect d).value.2 = true ↔
      d.old ≠ d.new ∧ h.registry.target? d.old = none) ∧
    ∀ old, h.registry.target? old = (h.takenRedirects.find? (·.old == old)).map (·.new) := by
  refine ⟨h.reachable.consistent.resolution, addRedirect_answer h.registry, ?_⟩
  intro old
  rw [target?, h.redirects_eq]

/-- With two steps to take: a chain that just reaches its end, one that is too long, one that ends
without a tag and one that is a circle. The second redirect of `B` is refused. -/
example :
    let r := (empty { maxHops := 2 }).run [.addNative ⟨"D", ""⟩,
      .addRedirects [⟨"A", "B"⟩, ⟨"B", "C"⟩, ⟨"B", "D"⟩, ⟨"C", "D"⟩, ⟨"X", "Y"⟩, ⟨"P", "Q"⟩, ⟨"Q", "P"⟩],
      .rebuild]
    (r.resolve "B").value = some ⟨"D"⟩ ∧ (r.resolve "B").events = [] ∧
      (r.resolve "A").value = none ∧ (r.resolve "A").events = [.redirectUnsettled "A" 2] ∧
      (r.resolve "X").value = none ∧ (r.resolve "X").events = [] ∧
      (r.resolve "P").events = [.redirectUnsettled "P" 2] := by
  decide +kernel

end TagTree.Registry
