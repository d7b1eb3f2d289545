import TagTree.Proofs.Block.Declared
import TagTree.Proofs.Registry.Fresh

/-!
# Registering an accepted block

The tables of an accepted block are coherent, and this is all that registering
it needs. A registry without tags holds afterwards exactly the tags of the
block, each with its comment, and looks its old names up under the tags that
replace them. One thing is not checked when a block is read: a tag on its
outermost level may have the reserved name, and then registering the block stops
there.

Registering goes through the table of tags and then through the redirects, so
what a registry holds afterwards is computed from two folds. The first is known
from registering rows in general, with the names that are accepted and the entry
of each; the second adds redirects that are all new, because old names occur
once and are no tags. `Registered` lists the result completely, including that
there is nothing else.

If a tag has the reserved name, its registration is refused, and it can only be
a tag of the outermost level, since every other tag has a dot in its name. The
answer and the registry are then known as well: the tags before it are there,
and everything behind it is not.
-/
namespace TagTree

namespace Block.Expansion

theorem register_of_ok {x : Expansion} {r : Registry} (h : (r.addNatives x.rows).value.2 = .ok ()) :
    (x.register r).value = (((r.addNatives x.rows).value.1.addRedirects x.redirects).value, .ok ()) := by
  rw [register, Logged.value_bind]
  cases hout : (r.addNatives x.rows).value with
  | mk r₁ answer =>
  rw [hout] at h
  cases h
  rfl

theorem register_of_error {x : Expansion} {r : Registry} {cause : RegistryError}
    (h : (r.addNatives x.rows).value.2 = .error cause) :
    (x.register r).value = ((r.addNatives x.rows).value.1, .error cause) := by
  rw [register, Logged.value_bind]
  cases hout : (r.addNatives x.rows).value with
  | mk r₁ answer =>
  rw [hout] at h
  cases h
  rfl

theorem addNatives_of_register {x : Expansion} {r : Registry}
    (h : (x.register r).value.2 = .ok ()) : (r.addNatives x.rows).value.2 = .ok () := by
  cases hout : (r.addNatives x.rows).value.2 with
  | ok u => rfl
  | error cause =>
      rw [register_of_error hout] at h
      cases h

structure Registered (x : Expansion) (r : Registry) : Prop where
  tags : ∀ m, r.contains m ↔ m ∈ x.tags
  count : r.tagCount = x.rows.length
  entries : ∀ row ∈ x.rows, r.entry? ⟨row.tag⟩ = some ⟨some Source.native, row.comment⟩
  /-- No tag is there only because of the tags below it. -/
  named : ∀ m, r.contains m → r.isNamed ⟨m⟩
  redirected : ∀ d ∈ x.redirects, d.old ≠ Name.none → ¬ r.contains d.old ∧ r.contains d.new ∧
    ∀ report, (r.requestIf report d.old).value.2 = ⟨d.new⟩

theorem addRedirects_addNatives {x : Expansion} (hx : x.Coherent) {r : Registry} (hr : r.Fresh) :
    ((r.addNatives x.rows).value.1.addRedirects x.redirects).value =
      { (r.addNatives x.rows).value.1 with redirects := x.redirects } := by
  have hredirects := (Registry.SameButRows.addNatives hr.finalized x.rows).redirects
  rw [hr.redirects] at hredirects
  rw [Registry.addRedirects_of_new, hredirects, List.nil_append]
  · intro d hd he
    exact hx.old_not_mem hd (he ▸ hx.targets d hd)
  · rw [hredirects]
    exact hx.olds_nodup

section
variable {x : Expansion} (hx : x.Coherent) {r : Registry} (hr : r.Fresh)
  (hvalid : ∀ row ∈ x.rows, Name.Valid row.tag)
include hx hr hvalid

theorem contains_addNatives (m : String) :
    (r.addNatives x.rows).value.1.contains m ↔ m ∈ x.tags := by
  rw [hr.contains_addNatives, Registry.nativeNames_of_valid hvalid]
  constructor
  · rintro ⟨n, hn, hm⟩
    exact hx.closed n hn m hm
  · intro hm
    exact ⟨m, hm, (hx.legible m (List.mem_append_left _ hm)).1.ne_empty, .inl rfl⟩

theorem tagCount_addNatives : (r.addNatives x.rows).value.1.tagCount = x.rows.length := by
  have htree := (Registry.addNatives_grows hr.reachable.consistent x.rows).1.consistent.tree
  have hperm : ((r.addNatives x.rows).value.1.tree.tags.map (·.name)).Perm x.tags := by
    refine (List.perm_ext_iff_of_nodup htree.tags_nodup hx.tags_nodup).mpr ?_
    intro m
    rw [← contains_addNatives hx hr hvalid]
    constructor
    · intro hm
      obtain ⟨t, ht, rfl⟩ := List.mem_map.mp hm
      exact htree.mem_tags.mp ht
    · intro hm
      exact List.mem_map.mpr ⟨⟨m⟩, htree.mem_tags.mpr hm, rfl⟩
  have hlength := hperm.length_eq
  rw [List.length_map, Tree.length_tags, tags, List.length_map] at hlength
  exact hlength

theorem known_addNatives {row : Row} (hrow : row ∈ x.rows) :
    Registry.entry? (r.addNatives x.rows).value.1 ⟨row.tag⟩ =
      some ⟨some Source.native, row.comment⟩ := by
  have hclaimed := hr.claimed.addNatives x.rows
  rw [hr.finalized, Registry.nativeRows_of_valid hvalid, List.nil_append] at hclaimed
  have hcontains := (contains_addNatives hx hr hvalid row.tag).mpr (List.mem_map_of_mem hrow)
  rw [Registry.entry?_eq, if_pos hcontains, hclaimed.entries,
    Registry.claimsOn_coded hx.tags_nodup hrow, Registry.claimedEntry_coded]

theorem registered_of_valid (hhops : 1 ≤ r.settings.maxHops) :
    x.Registered ((r.addNatives x.rows).value.1.addRedirects x.redirects).value := by
  have htags := contains_addNatives hx hr hvalid
  have hgrows := (Registry.addNatives_grows hr.reachable.consistent x.rows).1
  have hconsistent := (Registry.addRedirects_grows hgrows.consistent x.redirects).consistent
  have hcount := tagCount_addNatives hx hr hvalid
  rw [addRedirects_addNatives hx hr] at hconsistent ⊢
  constructor
  case tags => exact htags
  case count => exact hcount
  case entries => exact fun _ hrow => known_addNatives hx hr hvalid hrow
  case named =>
      intro m hm
      obtain ⟨row, hrow, rfl⟩ := List.mem_map.mp ((htags m).mp hm)
      have hknown := known_addNatives hx hr hvalid hrow
      exact Registry.isNamed_iff.mpr ⟨_, congrArg (Option.bind · Entry.source) hknown⟩
  case redirected =>
      intro d hd hnone
      have hold : ¬ (r.addNatives x.rows).value.1.contains d.old :=
        fun hc => hx.old_not_mem hd ((htags d.old).mp hc)
      have hnew := (htags d.new).mpr (hx.targets d hd)
      have hne := (hx.legible _ (List.mem_append_right _ (List.mem_map_of_mem hd))).1.ne_empty
      have htarget := Registry.target?_of_mem
        (r := { (r.addNatives x.rows).value.1 with redirects := x.redirects })
        hx.olds_nodup hd
      refine ⟨hold, hnew, ?_⟩
      intro report
      rw [Registry.requestIf_eq_lookup]
      exact hconsistent.lookup_of_target (hgrows.settings ▸ hhops) (Bool.eq_false_iff.mpr hold) hne
        hnone htarget hnew

end

end Block.Expansion

namespace Block

theorem register_complete {b : Block} (hb : b.Accepted) {x : Expansion} (hx : b.expand = .ok x)
    {r : Registry} (hr : r.Fresh) (hhops : 1 ≤ r.settings.maxHops)
    (hok : (x.register r).value.2 = .ok ()) : x.Registered (x.register r).value.1 := by
  have hcode := Expansion.addNatives_of_register hok
  rw [Expansion.register_of_ok hcode]
  refine Expansion.registered_of_valid (expand_coherent hb hx) hr ?_ hhops
  intro row hrow
  rw [Registry.addNatives_answer hr.finalized] at hcode
  split at hcode
  · cases hcode
  · rename_i hnone
    exact Registry.nameError?_eq_none.mp (List.findSome?_eq_none_iff.mp hnone row hrow)

/-- A raw name, a nested one that is reserved on its own, and a redirect of the reserved name. -/
theorem register_complete_nested :
    let text := "mod Tags \x7b r#type \x7b #[comment = \"nested\"] None; \x7d " ++
      "Old \x7b New; #[redirect = \"Old.New\"] Burn; \x7d #[redirect = \"Old\"] None; \x7d"
    ∃ b x, ofText text = .ok b ∧ b.expand = .ok x ∧ (Registry.empty {}).Fresh ∧
      1 ≤ (Registry.empty {}).settings.maxHops ∧
      x.rows = [⟨"r#type", ""⟩, ⟨"r#type.None", "nested"⟩, ⟨"Old", ""⟩, ⟨"Old.New", ""⟩] ∧
      x.redirects = [⟨"Old.Burn", "Old.New"⟩, ⟨"None", "Old"⟩] ∧
      (x.register (.empty {})).value.2 = .ok () ∧
      x.Registered (x.register (.empty {})).value.1 := by
  intro text
  let target (name : String) : Attributes := { redirect := some ⟨"\"" ++ name ++ "\"", name⟩ }
  let ds : Declarations := .cons ⟨"type", true⟩ {}
    (.cons ⟨"None", false⟩ { comment := some "nested" } .nil .nil)
    (.cons ⟨"Old", false⟩ {}
      (.cons ⟨"New", false⟩ {} .nil (.cons ⟨"Burn", false⟩ (target "Old.New") .nil .nil))
      (.cons ⟨"None", false⟩ (target "Old") .nil .nil))
  let b : Block := ⟨.inherited, ⟨"Tags", false⟩, ds⟩
  let x : Expansion := ⟨b.visibility, b.root, b.rows, b.aliases, .ofDeclarations "" 0 ds⟩
  have hread : ofText text = .ok b := by decide +kernel
  have hexpand : b.expand = .ok x := by decide +kernel
  have hok : (x.register (.empty {})).value.2 = .ok () := by decide +kernel
  have hfresh := Registry.empty_fresh {}
  refine ⟨b, x, hread, hexpand, hfresh, by decide, by decide +kernel, by decide +kernel, hok, ?_⟩
  exact register_complete (accepted_of_ofText hread) hexpand hfresh (by decide) hok

namespace Expansion

theorem Coherent.nativeNames_eq {x : Expansion} (hx : x.Coherent) :
    Registry.nativeNames false x.rows = x.tags.takeWhile (· ≠ Name.none) :=
  Registry.takeWhile_congr fun _ ht => decide_eq_decide.mpr (hx.valid_iff ht)

theorem Coherent.findSome?_eq {x : Expansion} (hx : x.Coherent) :
    (x.rows.findSome? fun row => Registry.nameError? row.tag) =
      if Name.none ∈ x.tags then some (.invalidTagName Name.none .reserved) else none := by
  cases hfound : x.rows.findSome? fun row => Registry.nameError? row.tag with
  | none =>
      have hvalid := List.findSome?_eq_none_iff.mp hfound
      rw [if_neg]
      intro hmem
      obtain ⟨row, hrow, hnone⟩ := List.mem_map.mp hmem
      have hv := Registry.nameError?_eq_none.mp (hvalid row hrow)
      exact (hx.valid_iff (List.mem_map_of_mem hrow)).mp hv hnone
  | some cause =>
      obtain ⟨row, hrow, hcause⟩ := List.exists_of_findSome?_eq_some hfound
      have hnone : row.tag = Name.none := by
        by_contra hne
        have hv := (hx.valid_iff (List.mem_map_of_mem hrow)).mpr hne
        rw [Registry.nameError?_eq_none.mpr hv] at hcause
        cases hcause
      rw [if_pos (hnone ▸ List.mem_map_of_mem hrow), ← hcause, hnone]
      decide

end Expansion

/-- An accepted block is registered unless it declares a tag of the reserved name, which is then refused.
This tag, those after it and all redirects are lost. -/
theorem register_answer {b : Block} (hb : b.Accepted) {x : Expansion} (hx : b.expand = .ok x)
    {r : Registry} (hr : r.Untagged) :
    (∀ t ∈ x.tags, t ≠ Name.none → Name.Valid t) ∧
    (x.register r).value.2 =
      (if Name.none ∈ x.tags then .error (.invalidTagName Name.none .reserved) else .ok ()) ∧
    (∀ m, (x.register r).value.1.contains m ↔
      ∃ n ∈ x.tags.takeWhile (· ≠ Name.none), Name.DottedPrefix m n) ∧
    (Name.none ∈ x.tags → (x.register r).value.1.redirects = r.redirects) := by
  have hcoherent := expand_coherent hb hx
  have hcode := Registry.addNatives_answer hr.finalized x.rows
  have hgrows := (Registry.addNatives_grows hr.reachable.consistent x.rows).1
  have hcontains := hr.contains_addNatives x.rows
  rw [hcoherent.findSome?_eq] at hcode
  rw [hcoherent.nativeNames_eq] at hcontains
  refine ⟨fun t ht => (hcoherent.valid_iff ht).mpr, ?_⟩
  by_cases hnone : Name.none ∈ x.tags
  · rw [if_pos hnone] at hcode
    rw [Expansion.register_of_error hcode, if_pos hnone]
    exact ⟨rfl, hcontains, fun _ => (Registry.SameButRows.addNatives hr.finalized x.rows).redirects⟩
  · rw [if_neg hnone] at hcode
    rw [Expansion.register_of_ok hcode, if_neg hnone]
    refine ⟨rfl, ?_, fun hmem => absurd hmem hnone⟩
    intro m
    rw [(Registry.addRedirects_grows hgrows.consistent x.redirects).contains_eq hgrows.consistent]
    exact hcontains m

/-- Names as a block can declare them, the reserved one among them, but not as a name of its own. -/
theorem register_answer_nested :
    let text := "mod Tags \x7b Größe; __ \x7b None \x7b r#None; \x7d \x7d r#None; \x7d"
    ∃ b x, ofText text = .ok b ∧ b.expand = .ok x ∧ (Registry.empty {}).Untagged ∧
      x.tags = ["Größe", "__", "__.None", "__.None.r#None", "r#None"] ∧
      (∀ t ∈ x.tags, t ≠ Name.none → Name.Valid t) ∧
      (x.register (.empty {})).value.2 = .ok () := by
  intro text
  let ds : Declarations := .cons ⟨"Größe", false⟩ {} .nil (.cons ⟨"__", false⟩ {}
    (.cons ⟨"None", false⟩ {} (.cons ⟨"None", true⟩ {} .nil .nil) .nil)
    (.cons ⟨"None", true⟩ {} .nil .nil))
  let b : Block := ⟨.inherited, ⟨"Tags", false⟩, ds⟩
  let x : Expansion := ⟨b.visibility, b.root, b.rows, b.aliases, .ofDeclarations "" 0 ds⟩
  have hread : ofText text = .ok b := by decide +kernel
  have hexpand : b.expand = .ok x := by decide +kernel
  have huntagged := (Registry.empty_fresh {}).toUntagged
  obtain ⟨hvalid, hanswer, _⟩ := register_answer (accepted_of_ofText hread) hexpand huntagged
  rw [if_neg (by decide +kernel)] at hanswer
  exact ⟨b, x, hread, hexpand, huntagged, by decide +kernel, hvalid, hanswer⟩

/-- A block that is accepted and not registered. -/
theorem register_answer_reserved :
    let text := "mod Tags \x7b None; After; \x7d"
    ∃ b x, ofText text = .ok b ∧ b.expand = .ok x ∧ x.tags = ["None", "After"] ∧
      (Registry.empty {}).Fresh ∧ ¬ Name.Valid "None" ∧
      (x.register (.empty {})).value.2 = .error (.invalidTagName "None" .reserved) ∧
      ¬ (x.register (.empty {})).value.1.contains "After" := by
  intro text
  let ds : Declarations := .cons ⟨"None", false⟩ {} .nil (.cons ⟨"After", false⟩ {} .nil .nil)
  let b : Block := ⟨.inherited, ⟨"Tags", false⟩, ds⟩
  let x : Expansion := ⟨b.visibility, b.root, b.rows, b.aliases, .ofDeclarations "" 0 ds⟩
  exact ⟨b, x, by decide +kernel, by decide +kernel, by decide +kernel, Registry.empty_fresh {},
    by decide +kernel, by decide +kernel, by decide +kernel⟩

end Block
end TagTree
