import TagTree.Error
import TagTree.Proofs.Registry.Fresh
import TagTree.Proofs.Registry.Loaded
import TagTree.Proofs.Registry.Resolving

/-!
# Configurations that are taken as they are

Settings are checked before a registry is made of them, name by name and with
the old names of the redirects at hand. The registry makes its own checks, row
by row against the tree and redirect by redirect against those it has. Both come
to the same: what passes the check is loaded without loss, and what the check
refuses for its rows or redirects would lose one of them.

The checks are turned into statements about all names and all redirects first.
For redirects the order matters, and the list of old names that a check has seen
corresponds to the redirects that a registry has so far: one step of the check
passes exactly if one step of the registry accepts. So both go through the list
together.

`LoadedWhole` says that nothing was lost: every row is in the log and under its
source, every redirect is there, and nothing was reported. For the converse, a
configuration whose numbers and other names are in order fails its check only
for a row or a redirect, and then the registry skips this row, which the log
shows, or refuses this redirect.
-/
namespace TagTree

theorem checkName_eq_ok {name : String} : checkName name = .ok () ↔ Name.Valid name := by
  unfold checkName Name.Valid
  cases Name.fault? name <;> simp

theorem checkNames_eq_ok {names : List String} :
    checkNames names = .ok () ↔ ∀ name ∈ names, Name.Valid name := by
  induction names with
  | nil => simp [checkNames]
  | cons name names ih =>
      rw [checkNames, bind_eq_ok, List.forall_mem_cons, ← ih, ← checkName_eq_ok]
      exact ⟨fun ⟨_, hname, hrest⟩ => ⟨hname, hrest⟩, fun ⟨hname, hrest⟩ => ⟨(), hname, hrest⟩⟩

theorem checkRows_eq_ok {rows : List Row} :
    checkRows rows = .ok () ↔ ∀ row ∈ rows, Name.Valid row.tag := by
  rw [checkRows, checkNames_eq_ok, List.forall_mem_map]

theorem checkWidth_eq_ok {field : String} {value : Nat} :
    checkWidth field value = .ok () ↔ 1 ≤ value ∧ value ≤ 16 := by
  unfold checkWidth
  split <;> simp_all

theorem valid_of_checkRedirects {seen : List String} {ds : List Redirect}
    (h : checkRedirects seen ds = .ok ()) : ∀ d ∈ ds, Name.Valid d.old ∧ Name.Valid d.new := by
  induction ds generalizing seen with
  | nil => simp
  | cons d ds ih =>
      obtain ⟨_, hold, h⟩ := bind_eq_ok.mp h
      obtain ⟨_, hnew, h⟩ := bind_eq_ok.mp h
      refine List.forall_mem_cons.mpr ⟨⟨checkName_eq_ok.mp hold, checkName_eq_ok.mp hnew⟩, ?_⟩
      split at h
      · cases h
      · split at h
        · cases h
        · exact ih h

namespace Registry

theorem takenRedirects_sublist (r : Registry) (ds : List Redirect) :
    (r.takenRedirects ds).Sublist ds := by
  induction ds generalizing r with
  | nil => exact List.Sublist.refl []
  | cons d ds ih =>
      rw [takenRedirects]
      split
      · exact (ih _).cons_cons d
      · exact (ih _).cons d

theorem takenRedirects_cons_eq {r : Registry} {d : Redirect} {ds : List Redirect} :
    r.takenRedirects (d :: ds) = d :: ds ↔ (r.addRedirect d).value.2 = true ∧
      (r.addRedirect d).value.1.takenRedirects ds = ds := by
  rw [takenRedirects]
  split
  · rename_i htaken
    simp [htaken]
  · rename_i hrefused
    refine iff_of_false ?_ fun h => hrefused h.1
    intro he
    have hlength := (takenRedirects_sublist (r.addRedirect d).value.1 ds).length_le
    rw [he, List.length_cons] at hlength
    omega

/-- The check passes redirects of valid names if a registry with redirects of the names seen so far
accepts all of them. -/
theorem checkRedirects_eq_ok {r : Registry} {seen : List String} {ds : List Redirect}
    (hnames : ∀ d ∈ ds, Name.Valid d.old ∧ Name.Valid d.new)
    (hseen : ∀ old, old ∈ seen ↔ old ∈ r.redirects.map (·.old)) :
    checkRedirects seen ds = .ok () ↔ r.takenRedirects ds = ds := by
  induction ds generalizing r seen with
  | nil => simp [checkRedirects, takenRedirects]
  | cons d ds ih =>
      obtain ⟨⟨hold, hnew⟩, hrest⟩ := List.forall_mem_cons.mp hnames
      have hanswer := addRedirect_answer r d
      rw [target?_eq_none, ← hseen] at hanswer
      rw [takenRedirects_cons_eq, hanswer, checkRedirects, checkName_eq_ok.mpr hold,
        checkName_eq_ok.mpr hnew, ok_bind, ok_bind]
      by_cases hself : d.old = d.new
      · simp [hself]
      · by_cases hmem : d.old ∈ seen
        · simp [hself, hmem]
        · -- Both sides take the redirect and remember its old name.
          have hnext : ∀ old, old ∈ d.old :: seen ↔
              old ∈ (r.addRedirect d).value.1.redirects.map (·.old) := by
            intro old
            rw [addRedirect_redirects, hanswer.mpr ⟨hself, hmem⟩, List.mem_cons, hseen]
            simp [or_comm]
          rw [if_neg hself, if_neg (by simpa using hmem), ih hrest hnext]
          simp [hself, hmem]

end Registry

/-- Settings whose numbers are in range and whose names other than those of rows are valid. -/
structure Settings.Sound (s : Settings) : Prop where
  sizeBits : 1 ≤ s.sizeBits ∧ s.sizeBits ≤ 16
  maxBits : 1 ≤ s.maxBits ∧ s.maxBits ≤ 16
  maxHops : s.maxHops ≠ 0
  common : ∀ name ∈ s.common, Name.Valid name
  redirects : ∀ d ∈ s.redirects, Name.Valid d.old ∧ Name.Valid d.new

theorem Settings.check_eq_ok {s : Settings} : s.check = .ok () ↔ s.Sound ∧
    (∀ row ∈ s.rows, Name.Valid row.tag) ∧
      (Registry.empty s).takenRedirects s.redirects = s.redirects := by
  have hseen : ∀ old, old ∈ ([] : List String) ↔
      old ∈ (Registry.empty s).redirects.map (·.old) := fun _ => Iff.rfl
  constructor
  · intro h
    obtain ⟨_, hsize, h⟩ := bind_eq_ok.mp h
    obtain ⟨_, hmax, h⟩ := bind_eq_ok.mp h
    dsimp only at h
    split at h
    · cases h
    · rename_i hhops
      obtain ⟨_, hrows, h⟩ := bind_eq_ok.mp h
      obtain ⟨_, hcommon, h⟩ := bind_eq_ok.mp h
      have hnames := valid_of_checkRedirects h
      exact ⟨⟨checkWidth_eq_ok.mp hsize, checkWidth_eq_ok.mp hmax, hhops,
        checkNames_eq_ok.mp hcommon, hnames⟩, checkRows_eq_ok.mp hrows,
        (Registry.checkRedirects_eq_ok hnames hseen).mp h⟩
  · rintro ⟨hsound, hrows, hredirects⟩
    unfold Settings.check
    rw [checkWidth_eq_ok.mpr hsound.sizeBits, checkWidth_eq_ok.mpr hsound.maxBits, ok_bind, ok_bind]
    dsimp only
    rw [if_neg hsound.maxHops, checkRows_eq_ok.mpr hrows, checkNames_eq_ok.mpr hsound.common,
      ok_bind, ok_bind]
    exact (Registry.checkRedirects_eq_ok hsound.redirects hseen).mpr hredirects

namespace Registry

theorem addRedirect_events (r : Registry) (d : Redirect) : (r.addRedirect d).events =
    if (r.addRedirect d).value.2 then []
    else [if d.old = d.new then .redirectToItself d.old else .redirectRepeated d.old] := by
  unfold addRedirect
  split
  · rfl
  · split <;> rfl

theorem addRedirects_events_congr {r r' : Registry} (h : r'.redirects = r.redirects)
    (ds : List Redirect) : (r'.addRedirects ds).events = (r.addRedirects ds).events := by
  induction ds generalizing r r' with
  | nil => rfl
  | cons d ds ih =>
      obtain ⟨hanswer, hrest⟩ := addRedirect_congr h d
      rw [Registry.addRedirects, Registry.addRedirects, Logged.events_bind, Logged.events_bind,
        addRedirect_events, addRedirect_events, hanswer, ih hrest]

theorem addRedirects_events_eq_nil {r : Registry} {ds : List Redirect} :
    (r.addRedirects ds).events = [] ↔ r.takenRedirects ds = ds := by
  induction ds generalizing r with
  | nil => exact iff_of_true rfl rfl
  | cons d ds ih =>
      rw [takenRedirects_cons_eq, ← ih, addRedirects, Logged.events_bind, List.append_eq_nil_iff,
        addRedirect_events]
      cases (r.addRedirect d).value.2 <;> simp

theorem mem_addRedirects_events {r : Registry} {ds : List Redirect} {e : Event}
    (h : e ∈ (r.addRedirects ds).events) :
    ∃ d ∈ ds, e = .redirectToItself d.old ∨ e = .redirectRepeated d.old := by
  induction ds generalizing r with
  | nil => cases h
  | cons d ds ih =>
      rw [addRedirects, Logged.events_bind, addRedirect_events] at h
      rcases List.mem_append.mp h with h | h
      · refine ⟨d, List.mem_cons_self, ?_⟩
        split at h
        · cases h
        · rw [List.mem_singleton.mp h]
          split <;> simp
      · obtain ⟨d', hd', he⟩ := ih h
        exact ⟨d', List.mem_cons_of_mem d hd', he⟩

theorem insertRedirect_perm (d : Redirect) (ds : List Redirect) :
    (insertRedirect d ds).Perm (d :: ds) := by
  induction ds with
  | nil => exact .refl _
  | cons e ds ih =>
      rw [insertRedirect]
      split
      · exact .refl _
      · exact (ih.cons e).trans (.swap d e ds)

theorem insertRedirect_sorted {d : Redirect} {ds : List Redirect}
    (hsorted : ds.Pairwise (·.old < ·.old)) (hnew : d.old ∉ ds.map (·.old)) :
    (insertRedirect d ds).Pairwise (·.old < ·.old) := by
  induction ds with
  | nil => exact List.pairwise_singleton _ d
  | cons e ds ih =>
      obtain ⟨hfirst, hrest⟩ := List.pairwise_cons.mp hsorted
      obtain ⟨hne, hnew⟩ := not_or.mp (mt List.mem_cons.mpr hnew)
      rw [insertRedirect]
      split
      · rename_i hlt
        refine List.pairwise_cons.mpr ⟨?_, hsorted⟩
        intro x hx
        rcases List.mem_cons.mp hx with rfl | hx
        · exact hlt
        · exact String.lt_trans hlt (hfirst x hx)
      · rename_i hle
        refine List.pairwise_cons.mpr ⟨?_, ih hrest hnew⟩
        intro x hx
        rcases List.mem_cons.mp ((insertRedirect_perm d ds).mem_iff.mp hx) with rfl | hx
        · by_contra hnot
          exact hne (String.le_antisymm (String.not_lt.mp hnot) (String.not_lt.mp hle))
        · exact hfirst x hx

theorem sorted_perm (ds : List Redirect) : (ds.foldr insertRedirect []).Perm ds := by
  induction ds with
  | nil => exact .refl _
  | cons d ds ih => exact (insertRedirect_perm d _).trans (ih.cons d)

theorem sorted_increasing {ds : List Redirect} (h : (ds.map (·.old)).Nodup) :
    (ds.foldr insertRedirect []).Pairwise (·.old < ·.old) := by
  induction ds with
  | nil => exact .nil
  | cons d ds ih =>
      obtain ⟨hnew, hrest⟩ := List.nodup_cons.mp h
      refine insertRedirect_sorted (ih hrest) ?_
      rwa [((sorted_perm ds).map _).mem_iff]

theorem nodup_addRedirects {r : Registry} (h : (r.redirects.map (·.old)).Nodup)
    (ds : List Redirect) : ((r.addRedirects ds).value.redirects.map (·.old)).Nodup := by
  induction ds generalizing r with
  | nil => exact h
  | cons d ds ih =>
      refine ih ?_
      rw [addRedirect_redirects]
      split
      · rename_i htaken
        have hnew := target?_eq_none.mp ((addRedirect_answer r d).mp htaken).2
        rw [List.map_append]
        exact h.append (List.nodup_singleton _) (List.disjoint_singleton.mpr hnew)
      · rwa [List.append_nil]

theorem Loaded.addRedirects {offered : List (String × Row)} {r : Registry} (h : Loaded offered r)
    (ds : List Redirect) : Loaded offered (r.addRedirects ds).value := by
  have hgrows := addRedirects_grows h.consistent ds
  rw [addRedirects_value] at hgrows ⊢
  exact ⟨hgrows.consistent, h.finalized, h.filed, h.log⟩

def offered (c : Configuration) : List (String × Row) :=
  c.settings.rows.map (Source.settings, ·) ++ listed c.lists

def sourceNames (c : Configuration) : List String := Source.settings :: c.lists.map (·.name)

section
variable {c : Configuration} (himport : c.settings.importTags = true)
include himport

theorem ofConfiguration_eq : ∃ r, Loaded (offered c) r ∧ r.redirects = [] ∧
    (∀ source ∈ sourceNames c, source ∈ r.sources.map (·.name)) ∧
    (ofConfiguration c).value = (r.addRedirects c.settings.redirects).value ∧
    (ofConfiguration c).events =
      (offered c).filterMap skipped? ++ (r.addRedirects c.settings.redirects).events := by
  have hempty := empty_loaded c.settings
  have hrows := hempty.load Source.settings .defaultList c.settings.rows
  have hreported := load_events hempty.finalized Source.settings .defaultList c.settings.rows
  obtain ⟨hlists, hevents⟩ := hrows.loadLists c.lists
  refine ⟨_, hlists, (loadLists_redirects _ c.lists).trans (load_redirects _ _ _ _), ?_, ?_, ?_⟩
  · intro source hsource
    rcases List.mem_cons.mp hsource with rfl | hsource
    · exact (loadLists_grows hrows.consistent c.lists).sources _
        (load_source hempty.consistent hempty.finalized _ _ _)
    · obtain ⟨list, hlist, rfl⟩ := List.mem_map.mp hsource
      exact hrows.loadLists_sources hlist
  · rw [ofConfiguration, if_pos himport]
    rfl
  · rw [offered, List.filterMap_append, ← hevents, ← hreported, ofConfiguration, if_pos himport,
      List.append_assoc]
    rfl

theorem ofConfiguration_loaded : Loaded (offered c) (ofConfiguration c).value := by
  obtain ⟨r, hr, _, _, hvalue, _⟩ := ofConfiguration_eq himport
  rw [hvalue]
  exact hr.addRedirects c.settings.redirects

theorem mem_sources_ofConfiguration {source : String} (hsource : source ∈ sourceNames c) :
    source ∈ (ofConfiguration c).value.sources.map (·.name) := by
  obtain ⟨r, _, _, hsources, hvalue, _⟩ := ofConfiguration_eq himport
  rw [hvalue, addRedirects_value]
  exact hsources source hsource

/-- The rows are reported first, and the redirects as if there were no rows. -/
theorem ofConfiguration_events : (ofConfiguration c).events = (offered c).filterMap skipped? ++
    ((empty c.settings).addRedirects c.settings.redirects).events := by
  obtain ⟨r, _, hnone, _, _, hevents⟩ := ofConfiguration_eq himport
  have hsame : (empty c.settings).redirects = r.redirects := hnone.symm
  rw [hevents, addRedirects_events_congr hsame]

end

theorem Consistent.requestIf_of_contains {r : Registry} (h : r.Consistent) {name : String}
    (hc : r.contains name) (hnone : name ≠ Name.none) (report : Bool) :
    r.requestIf report name = pure (r, ⟨name⟩) := by
  have hne := h.ne_empty_of_contains hc
  have hlookup : r.lookup name = pure ⟨name⟩ := by
    rw [lookup, if_neg (by simp [hne, hnone]), h.find?_eq, if_pos hc]
  have hvalid : (Tag.mk name).isValid := bne_iff_ne.mpr hne
  have hfound : r.isReportable name ⟨name⟩ = false := by simp [isReportable, hvalid]
  have hbind : ∀ f : Tag → Logged (Registry × Tag), (r.lookup name >>= f) = f ⟨name⟩ := by
    intro f
    rw [hlookup]
    rfl
  rw [requestIf, request, hbind, hbind, hfound, if_neg Bool.false_ne_true, ite_self]

/-- A configuration of which nothing is lost. -/
structure LoadedWhole (c : Configuration) : Prop where
  silent : (ofConfiguration c).events = []
  logged : (ofConfiguration c).value.log = offered c
  /-- Every source has its rows, in order. -/
  recorded : ∀ source ∈ sourceNames c, ∃ s, (ofConfiguration c).value.source? source = some s ∧
    s.rows = rowsFrom (offered c) source
  registered : ∀ e ∈ offered c, (ofConfiguration c).value.contains e.2.tag
  requested : ∀ e ∈ offered c, ∀ report, (ofConfiguration c).value.requestIf report e.2.tag =
    pure ((ofConfiguration c).value, ⟨e.2.tag⟩)
  redirects : (ofConfiguration c).value.redirects = c.settings.redirects
  sorted : (ofConfiguration c).value.sortedRedirects.Perm c.settings.redirects ∧
    (ofConfiguration c).value.sortedRedirects.Pairwise (·.old < ·.old)

def SkipsRow (c : Configuration) : Prop := ∃ row ∈ c.settings.rows, ∃ cause,
  .rowSkipped Source.settings row.tag cause ∈ (ofConfiguration c).events

def RefusesRedirect (c : Configuration) : Prop := ∃ d ∈ c.settings.redirects,
  .redirectToItself d.old ∈ (ofConfiguration c).events ∨
    .redirectRepeated d.old ∈ (ofConfiguration c).events

/-- What the check of the settings says of the registry that is made of a configuration. -/
structure Foreseen (c : Configuration) : Prop where
  whole : c.settings.check = .ok () → (∀ list ∈ c.lists, checkRows list.rows = .ok ()) →
    LoadedWhole c
  rejected : c.settings.Sound →
    ((∃ fault, c.settings.check = .error fault) ↔ SkipsRow c ∨ RefusesRedirect c)
  skipped : SkipsRow c ↔
    ∃ row ∈ c.settings.rows, (Source.settings, row) ∉ (ofConfiguration c).value.log
  refused : RefusesRedirect c ↔ (ofConfiguration c).value.redirects ≠ c.settings.redirects

section
variable {c : Configuration} (himport : c.settings.importTags = true)
include himport

theorem skipsRow_iff : SkipsRow c ↔ ∃ row ∈ c.settings.rows, ¬ Name.Valid row.tag := by
  rw [SkipsRow, ofConfiguration_events himport]
  constructor
  · rintro ⟨row, hrow, cause, hmem⟩
    refine ⟨row, hrow, ?_⟩
    rcases List.mem_append.mp hmem with hmem | hmem
    · obtain ⟨e, _, he⟩ := List.mem_filterMap.mp hmem
      obtain ⟨cause', hcause, heq⟩ := Option.map_eq_some_iff.mp he
      injection heq with _ htag _
      rw [← nameError?_eq_none, ← htag, hcause]
      simp
    · obtain ⟨d, _, hself | hrepeated⟩ := mem_addRedirects_events hmem
      · cases hself
      · cases hrepeated
  · rintro ⟨row, hrow, hv⟩
    obtain ⟨cause, hcause⟩ := Option.ne_none_iff_exists'.mp (mt nameError?_eq_none.mp hv)
    refine ⟨row, hrow, cause, List.mem_append_left _ (List.mem_filterMap.mpr ?_)⟩
    refine ⟨(Source.settings, row), List.mem_append_left _ (List.mem_map_of_mem hrow), ?_⟩
    rw [skipped?, hcause]
    rfl

theorem refusesRedirect_iff : RefusesRedirect c ↔
    (empty c.settings).takenRedirects c.settings.redirects ≠ c.settings.redirects := by
  have hreported : ∀ e ∈ (offered c).filterMap skipped?, ∃ source tag cause,
      e = .rowSkipped source tag cause := by
    intro e he
    obtain ⟨x, _, hx⟩ := List.mem_filterMap.mp he
    obtain ⟨cause, _, rfl⟩ := Option.map_eq_some_iff.mp hx
    exact ⟨_, _, _, rfl⟩
  rw [Ne, ← addRedirects_events_eq_nil, RefusesRedirect, ofConfiguration_events himport]
  constructor
  · rintro ⟨d, _, hmem⟩ hnil
    rw [hnil, List.append_nil] at hmem
    rcases hmem with hmem | hmem
    · obtain ⟨_, _, _, he⟩ := hreported _ hmem
      cases he
    · obtain ⟨_, _, _, he⟩ := hreported _ hmem
      cases he
  · intro hne
    obtain ⟨e, he⟩ := List.exists_mem_of_ne_nil _ hne
    obtain ⟨d, hd, rfl | rfl⟩ := mem_addRedirects_events he
    · exact ⟨d, hd, .inl (List.mem_append_right _ he)⟩
    · exact ⟨d, hd, .inr (List.mem_append_right _ he)⟩

theorem loadedWhole_of_valid (hvalid : ∀ e ∈ offered c, Name.Valid e.2.tag)
    (htaken : (empty c.settings).takenRedirects c.settings.redirects = c.settings.redirects) :
    LoadedWhole c := by
  have hloaded := ofConfiguration_loaded himport
  have hc := hloaded.consistent
  have hlog : (ofConfiguration c).value.log = offered c := by
    rw [hloaded.log, acceptable, List.filter_eq_self.mpr]
    exact fun e he => decide_eq_true (hvalid e he)
  have hregistered : ∀ e ∈ offered c, (ofConfiguration c).value.contains e.2.tag := by
    intro e he
    have hlogged : e.2.tag ∈ (ofConfiguration c).value.logged := List.mem_map_of_mem (hlog ▸ he)
    exact (hc.names _).mpr ⟨_, hlogged, (hvalid e he).ne_empty, .inl rfl⟩
  have hredirects : (ofConfiguration c).value.redirects = c.settings.redirects :=
    (ofConfiguration_redirects c).trans htaken
  constructor
  case silent =>
      rw [ofConfiguration_events himport, List.append_eq_nil_iff, addRedirects_events_eq_nil,
        List.filterMap_eq_nil_iff]
      refine ⟨?_, htaken⟩
      intro e he
      rw [skipped?, nameError?_eq_none.mpr (hvalid e he)]
      rfl
  case logged => exact hlog
  case recorded =>
      intro source hsource
      have hmem := mem_sources_ofConfiguration himport hsource
      obtain ⟨s, hs⟩ := Option.isSome_iff_exists.mp (mem_sources_iff.mp hmem)
      have hname : s.name = source := by simpa using List.find?_some hs
      refine ⟨s, hs, ?_⟩
      rw [hloaded.filed s (List.mem_of_find?_eq_some hs), hname, hlog]
  case registered => exact hregistered
  case requested =>
      intro e he report
      have hnone := (Name.valid_iff_legible.mp (hvalid e he)).2
      exact hc.requestIf_of_contains (hregistered e he) hnone report
  case redirects => exact hredirects
  case sorted =>
      have hdiffer : ((ofConfiguration c).value.redirects.map (·.old)).Nodup := by
        rw [ofConfiguration_redirects]
        have htakenOnce := nodup_addRedirects (r := empty c.settings) List.nodup_nil
          c.settings.redirects
        rwa [addRedirects_redirects] at htakenOnce
      exact ⟨hredirects ▸ sorted_perm _, sorted_increasing hdiffer⟩

/-- What the check passes is loaded without loss and without a report, and what it refuses for a row or
a redirect is what would lose one of them. -/
theorem check_foresees : Foreseen c := by
  have hskips := skipsRow_iff himport
  have hrefuses := refusesRedirect_iff himport
  constructor
  case whole =>
      intro hcheck hlists
      obtain ⟨_, hrows, htaken⟩ := Settings.check_eq_ok.mp hcheck
      refine loadedWhole_of_valid himport ?_ htaken
      intro e he
      rcases List.mem_append.mp he with he | he
      · obtain ⟨row, hrow, rfl⟩ := List.mem_map.mp he
        exact hrows row hrow
      · obtain ⟨list, hlist, he⟩ := List.mem_flatMap.mp he
        obtain ⟨row, hrow, rfl⟩ := List.mem_map.mp he
        exact checkRows_eq_ok.mp (hlists list hlist) row hrow
  case rejected =>
      intro hsound
      have hrefused : (∃ fault, c.settings.check = .error fault) ↔
          ¬ c.settings.check = .ok () := by
        cases c.settings.check <;> simp
      rw [hrefused, Settings.check_eq_ok, hskips, hrefuses]
      simp only [hsound, true_and, not_and_or, not_forall, exists_prop, Ne]
  case skipped =>
      have hloaded := ofConfiguration_loaded himport
      rw [hskips]
      refine exists_congr fun row => and_congr_right fun hrow => not_congr ?_
      exact (hloaded.mem_log (List.mem_append_left _ (List.mem_map_of_mem hrow))).symm
  case refused => rw [hrefuses, ofConfiguration_redirects]

end

/-- A list brings a comment for a tag of the settings and another one uses the name of their source.
With a second redirect of one name the same settings are refused. -/
theorem check_foresees_lists :
    let settings : Settings := { rows := [⟨"A.B", ""⟩], common := ["A.B"],
                                 redirects := [⟨"Z", "A"⟩, ⟨"Old", "Z"⟩] }
    let c : Configuration := ⟨settings, [⟨"List", [⟨"C", ""⟩, ⟨"A.B", "late"⟩]⟩,
      ⟨"DefaultGameplayTags", [⟨"A", "parent"⟩]⟩]⟩
    let repeated : Configuration := ⟨{ settings with redirects := [⟨"Z", "A"⟩, ⟨"Z", "C"⟩] }, c.lists⟩
    (c.settings.importTags = true ∧ repeated.settings.importTags = true) ∧
      LoadedWhole c ∧ (SkipsRow repeated ∨ RefusesRedirect repeated) := by
  intro settings c repeated
  have hlists : ∀ list ∈ c.lists, checkRows list.rows = .ok () := by
    intro list hlist
    rcases List.mem_cons.mp hlist with rfl | hlist
    · rfl
    · rw [List.mem_singleton.mp hlist]
      rfl
  have hsound : repeated.settings.Sound := by
    constructor <;> decide
  exact ⟨⟨rfl, rfl⟩, (check_foresees (c := c) rfl).whole rfl hlists,
    ((check_foresees (c := repeated) rfl).rejected hsound).mp ⟨_, rfl⟩⟩

end Registry
end TagTree
