import TagTree.Proofs.Block.Accepting

/-!
# Modules and tables of an expanded block

The modules of a block are made by a traversal of their own, and still there is
one module for every row and one for every old name, at the way that the name
spells. The path of an alias climbs from its module to the root and goes down to
the module of the tag that replaces the name. Modules are found by names without
the mark of raw words, so this is said of blocks of plain words. Depths are
bytes, which do not overflow as long as no more than 255 levels are nested.

`Site` is a module without what surrounds it: the names on the way to it and
what it holds. The sites of the modules are a permutation of the sites that the
rows and the old names stand for, and since the names on every level differ, no
two modules have one way and each is found at its way by descending from the
root.

A path is followed step by step, and a step up from the root leads nowhere, so
it matters that a climb has exactly as many steps as its module is deep. The
descent then finds the module of the row whose name is the target. The number of
steps comes from a depth, so the bound on the nesting is needed for aliases as
well as for the constants of the tags.
-/
namespace TagTree.Block

/-- A module below the root: the names on the way to it, its own the last, and what it holds. -/
structure Site where
  way : List String
  item : Item
deriving DecidableEq

namespace Modules

def sites (above : List String) : Modules → List Site
  | nil => []
  | cons name _ item inner rest =>
    let way := above ++ [name.text]
    ⟨way, item⟩ :: (inner.sites way ++ rest.sites above)

def level : Modules → List String
  | nil => []
  | cons name _ _ _ rest => name.text :: rest.level

/-- On every level the names differ. -/
inductive Apart : Modules → Prop
  | nil : Apart .nil
  | cons {name : Identifier} {d : Option Deprecation} {item : Item} {inner rest : Modules} :
      name.text ∉ rest.level → inner.Apart → rest.Apart → Apart (.cons name d item inner rest)

end Modules

def Site.ofRow (row : Row) : Site :=
  let way := Name.segments row.tag
  ⟨way, .tag row.tag (UInt8.ofNat (way.length - 1)) row.comment⟩

def Site.ofAlias (entry : String × StringLiteral) : Site :=
  let way := Name.segments entry.1
  ⟨way, .alias entry.1 way.length (Name.segments entry.2.value)⟩

/-- A module as one sees it from inside: what it holds and the modules in it. The root holds nothing
besides modules. -/
structure Place where
  item : Option Item
  inner : Modules

def Modules.find? (name : String) : Modules → Option Place
  | nil => none
  | cons i _ item inner rest => if i.text = name then some ⟨some item, inner⟩ else rest.find? name

namespace Place

/-- Where names lead from a module, one inside the other. -/
def at? (here : Place) (way : List String) : Option Place :=
  way.foldlM (fun place name => place.inner.find? name) here

end Place

/-- One step of a path: to the module around, or to a module inside. -/
inductive Step where
  | up
  | into (name : String)

/-- Where a step leads from the module at `way`, seen from the root `top`. There is no step up from the
root. -/
def Place.step (top : Place) (way : List String) : Step → Option (List String)
  | .up => if way = [] then none else some way.dropLast
  | .into name => (top.at? (way ++ [name])).map fun _ => way ++ [name]

/-- Where a path leads from the module at `way`. -/
def Place.follow (top : Place) (way : List String) (path : List Step) : Option (List String) :=
  path.foldlM top.step way

def Expansion.top (x : Expansion) : Place := ⟨none, x.modules⟩

def aliasPath (climb : Nat) (descent : List String) : List Step :=
  List.replicate climb .up ++ descent.map .into

/-- How the modules of an expanded block belong to its tables. -/
structure Expansion.Mirrors (x : Expansion) : Prop where
  /-- There is a module for every row and for every old name, and there are no others. -/
  sites : (x.modules.sites []).Perm (x.rows.map Site.ofRow ++ x.aliases.map Site.ofAlias)
  /-- No two modules are at the same place. -/
  apart : ((x.modules.sites []).map Site.way).Nodup
  /-- What is found at the way of a module is this module. -/
  found : ∀ s ∈ x.modules.sites [], ∃ inner, x.top.at? s.way = some ⟨some s.item, inner⟩
  /-- A depth counts the levels around a tag, and so does the byte for the level inside. -/
  depth : ∀ s ∈ x.modules.sites [], ∀ path depth comment, s.item = .tag path depth comment →
    depth.toNat + 1 = s.way.length ∧ (depth + 1).toNat = s.way.length
  /-- The path of an alias leads to the root, and from there to the tag that replaces the name. -/
  leads : ∀ s ∈ x.modules.sites [], ∀ old climb descent, s.item = .alias old climb descent →
    x.top.follow s.way (List.replicate climb .up) = some [] ∧
    ∃ target, (old, target) ∈ x.aliases ∧ ∃ row ∈ x.rows, row.tag = target.value ∧
      x.top.follow s.way (aliasPath climb descent) = some (Site.ofRow row).way ∧
      ∃ inner, x.top.at? (Site.ofRow row).way = some ⟨some (Site.ofRow row).item, inner⟩

namespace Node

/-- The depth of a node in the tree of the tags, as a byte. -/
def depth (n : Node) : UInt8 := UInt8.ofNat (n.way.length - 1)

def site (n : Node) : Site where
  way := n.way.map (·.text)
  item :=
    match n.attributes.redirect with
    | some target => .alias n.path (n.depth.toNat + 1) (Name.segments target.value)
    | none => .tag n.path n.depth (n.attributes.comment.getD "")

end Node

theorem sites_ofDeclarations {ds : Declarations} (hwf : ds.WellFormed) (hs : ds.Spelt)
    {above : List Identifier} (ha : ∀ i ∈ above, i.Spelt) :
    (Modules.ofDeclarations (dotted above) (UInt8.ofNat above.length) ds).sites
      (above.map (·.text)) = (ds.nodes above).map Node.site := by
  induction hwf generalizing above with
  | nil => rfl
  | @cons name a children rest _ hleaf _ _ ihchildren ihrest =>
      obtain ⟨hname, hchildren, hrest⟩ := hs
      have hchild := ihchildren hchildren (spelt_snoc ha hname)
      have hlater := ihrest hrest ha
      have hpath := child_dotted ha hname
      have hdepth : UInt8.ofNat above.length + 1 = UInt8.ofNat (above ++ [name]).length := by simp
      have hway : above.map (·.text) ++ [name.text] = (above ++ [name]).map (·.text) := by simp
      have hown : Node.depth ⟨above ++ [name], a⟩ = UInt8.ofNat above.length := by
        simp [Node.depth]
      cases hredirect : a.redirect with
      | some target =>
          have hempty := hleaf (by simp [hredirect])
          simp [Modules.ofDeclarations, Modules.sites, Declarations.nodes, Node.site, Node.path,
            hredirect, hlater, hempty, hpath, hown]
      | none =>
          simp only [Modules.ofDeclarations, Modules.sites, Declarations.nodes, hredirect, hpath,
            hdepth, hway, hchild, hlater, ← List.map_append]
          simp [Node.site, Node.path, hredirect, hown]

theorem Identifier.name_of_plain {i : Identifier} (h : i.raw = false) : i.name = i.text := by
  simp [name, h]

theorem Identifier.text_inj {i j : Identifier} (hi : i.raw = false) (hj : j.raw = false) :
    i.text = j.text ↔ i = j := by
  obtain ⟨s, _⟩ := i
  obtain ⟨t, _⟩ := j
  cases hi
  cases hj
  simp

namespace Node

/-- That there are only plain words on the way to a node. -/
def Plain (n : Node) : Prop := ∀ i ∈ n.way, i.raw = false

instance (n : Node) : Decidable n.Plain :=
  inferInstanceAs (Decidable (∀ i ∈ n.way, i.raw = false))

/-- A node whose way is spelt with plain words and no longer than a byte can count. -/
structure Ordinary (n : Node) : Prop where
  spelt : ∀ i ∈ n.way, i.Spelt
  plain : n.Plain
  below : n.way ≠ []
  shallow : n.way.length ≤ 255

namespace Ordinary
variable {n : Node} (h : n.Ordinary)
include h

theorem depth_toNat : n.depth.toNat + 1 = n.way.length ∧ (n.depth + 1).toNat = n.way.length := by
  have hpos := List.length_pos_iff.mpr h.below
  have hle := h.shallow
  have hone : (1 : UInt8).toNat = 1 := rfl
  simp only [depth, UInt8.toNat_add, UInt8.toNat_ofNat', hone]
  omega

theorem segments_path : Name.segments n.path = n.way.map (·.text) := by
  rw [path, segments_dotted h.spelt h.below]
  exact List.map_congr_left fun i hi => Identifier.name_of_plain (h.plain i hi)

theorem site_ofRow {row : Row} (hrow : n.row? = some row) : Site.ofRow row = n.site := by
  obtain ⟨htag, rfl⟩ := row?_eq_some.mp hrow
  have hredirect : n.attributes.redirect = none := by simpa [isTag] using htag
  simp [Site.ofRow, site, depth, h.segments_path, hredirect]

theorem site_ofAlias {entry : String × StringLiteral} (halias : n.alias? = some entry) :
    Site.ofAlias entry = n.site := by
  obtain ⟨hredirect, hold⟩ := alias?_eq_some.mp halias
  simp [Site.ofAlias, site, hold, h.segments_path, hredirect, h.depth_toNat.1]

theorem target_of_site {old : String} {climb : Nat} {descent : List String}
    (hitem : n.site.item = .alias old climb descent) :
    ∃ target, n.attributes.redirect = some target ∧ old = n.path ∧ climb = n.site.way.length ∧
      descent = Name.segments target.value := by
  rw [site, h.depth_toNat.1] at hitem
  dsimp only at hitem
  split at hitem
  · rename_i target htarget
    cases hitem
    exact ⟨target, htarget, rfl, (List.length_map ..).symm, rfl⟩
  · cases hitem

theorem depth_of_site {path comment : String} {depth : UInt8}
    (hitem : n.site.item = .tag path depth comment) :
    depth.toNat + 1 = n.site.way.length ∧ (depth + 1).toNat = n.site.way.length := by
  rw [site] at hitem
  dsimp only at hitem
  split at hitem
  · cases hitem
  · cases hitem
    simpa only [site, List.length_map] using h.depth_toNat

end Ordinary
end Node

theorem perm_sites {ns : List Node} (h : ∀ n ∈ ns, n.Ordinary) : (ns.map Node.site).Perm
    ((ns.filterMap Node.row?).map Site.ofRow ++ (ns.filterMap Node.alias?).map Site.ofAlias) := by
  induction ns with
  | nil => exact .refl _
  | cons n ns ih =>
      obtain ⟨hn, hns⟩ := List.forall_mem_cons.mp h
      have hlater := ih hns
      cases hredirect : n.attributes.redirect with
      | none =>
          have hrow : n.row? = some ⟨n.path, n.attributes.comment.getD ""⟩ := by
            simp [Node.row?, hredirect]
          have halias : n.alias? = none := by simp [Node.alias?, hredirect]
          rw [List.filterMap_cons_some hrow, List.filterMap_cons_none halias, List.map_cons,
            List.map_cons, hn.site_ofRow hrow]
          exact hlater.cons _
      | some target =>
          have hrow : n.row? = none := by simp [Node.row?, hredirect]
          have halias : n.alias? = some (n.path, target) := by simp [Node.alias?, hredirect]
          rw [List.filterMap_cons_none hrow, List.filterMap_cons_some halias, List.map_cons,
            List.map_cons, hn.site_ofAlias halias]
          exact (hlater.cons _).trans List.perm_middle.symm

theorem level_ofDeclarations (above : String) (depth : UInt8) (ds : Declarations) :
    (Modules.ofDeclarations above depth ds).level = ds.level.map (·.text) := by
  induction ds generalizing depth with
  | nil => rfl
  | cons name a children rest _ ihrest =>
      cases hredirect : a.redirect <;>
        simp [Modules.ofDeclarations, Modules.level, Declarations.level, hredirect, ihrest]

theorem apart_ofDeclarations {ds : Declarations} (hwf : ds.WellFormed) {way : List Identifier}
    (hplain : ∀ n ∈ ds.nodes way, n.Plain) (above : String) (depth : UInt8) :
    (Modules.ofDeclarations above depth ds).Apart := by
  induction hwf generalizing way above depth with
  | nil => exact .nil
  | @cons name a children rest hnew _ _ _ ihchildren ihrest =>
      obtain ⟨hown, hplain⟩ := List.forall_mem_cons.mp hplain
      obtain ⟨hinside, hlater⟩ := List.forall_mem_append.mp hplain
      have hname : name.text ∉ (Modules.ofDeclarations above depth rest).level := by
        rw [level_ofDeclarations]
        intro hmem
        obtain ⟨i, hi, htext⟩ := List.mem_map.mp hmem
        obtain ⟨n, hn, hway⟩ := Declarations.exists_node_of_mem_level way hi
        have hi' : i.raw = false := hlater n hn i (by simp [hway])
        exact hnew ((Identifier.text_inj hi' (hown name (by simp))).mp htext ▸ hi)
      have hrest := ihrest hlater above depth
      unfold Modules.ofDeclarations
      cases a.redirect with
      | none => exact .cons hname (ihchildren hinside ..) hrest
      | some target => exact .cons hname .nil hrest

theorem Modules.level_of_mem_sites {ms : Modules} {above : List String} {s : Site}
    (hs : s ∈ ms.sites above) : ∃ name ∈ ms.level, ∃ tail, s.way = above ++ name :: tail := by
  induction ms generalizing above with
  | nil => cases hs
  | cons name d item inner rest ihinner ihrest =>
      rw [sites, List.mem_cons, List.mem_append] at hs
      rcases hs with rfl | hs | hs
      · exact ⟨name.text, List.mem_cons_self, [], rfl⟩
      · obtain ⟨first, _, tail, hway⟩ := ihinner hs
        exact ⟨name.text, List.mem_cons_self, first :: tail, by simp [hway]⟩
      · obtain ⟨first, hfirst, htail⟩ := ihrest hs
        exact ⟨first, List.mem_cons_of_mem _ hfirst, htail⟩

theorem Modules.exists_site_of_mem_level {ms : Modules} (above : List String) {name : String}
    (h : name ∈ ms.level) : ∃ s ∈ ms.sites above, s.way = above ++ [name] := by
  induction ms with
  | nil => cases h
  | cons i d item inner rest _ ihrest =>
      rcases List.mem_cons.mp h with rfl | h
      · exact ⟨_, List.mem_cons_self, rfl⟩
      · obtain ⟨s, hs, hway⟩ := ihrest h
        exact ⟨s, List.mem_cons_of_mem _ (List.mem_append_right _ hs), hway⟩

/-- The ways to modules differ exactly if the names on every level do. -/
theorem Modules.apart_iff {ms : Modules} (above : List String) :
    ms.Apart ↔ ((ms.sites above).map Site.way).Nodup := by
  constructor
  · intro h
    induction h generalizing above with
    | nil => exact .nil
    | @cons name d item inner rest hnew _ _ ihinner ihrest =>
        -- Ways to modules of this level and below it go on with another name.
        have hrest : ∀ t ∈ rest.sites above, ∀ tail, t.way ≠ above ++ name.text :: tail := by
          intro t ht tail he
          obtain ⟨first, hfirst, _, hway⟩ := level_of_mem_sites ht
          rw [hway] at he
          obtain ⟨rfl, _⟩ := List.cons.inj (List.append_cancel_left he)
          exact hnew hfirst
        have hinner : ∀ t ∈ inner.sites (above ++ [name.text]), ∃ first tail,
            t.way = above ++ name.text :: first :: tail := by
          intro t ht
          obtain ⟨first, _, tail, hway⟩ := level_of_mem_sites ht
          exact ⟨first, tail, by simp [hway]⟩
        rw [sites, List.map_cons, List.map_append, List.nodup_cons, List.nodup_append]
        refine ⟨?_, ihinner _, ihrest above, ?_⟩
        · rw [List.mem_append, List.mem_map, List.mem_map]
          rintro (⟨t, ht, he⟩ | ⟨t, ht, he⟩)
          · obtain ⟨first, tail, hway⟩ := hinner t ht
            simp [he] at hway
          · exact hrest t ht [] he
        · intro way hway way' hway' he
          obtain ⟨t, ht, rfl⟩ := List.mem_map.mp hway
          obtain ⟨t', ht', rfl⟩ := List.mem_map.mp hway'
          obtain ⟨first, tail, hfront⟩ := hinner t ht
          exact hrest t' ht' _ (he ▸ hfront)
  · intro h
    induction ms generalizing above with
    | nil => exact .nil
    | cons name d item inner rest ihinner ihrest =>
        rw [sites, List.map_cons, List.map_append, List.nodup_cons, List.nodup_append] at h
        obtain ⟨hown, hinner, hrest, _⟩ := h
        refine .cons ?_ (ihinner _ hinner) (ihrest above hrest)
        intro hmem
        obtain ⟨s, hs, hway⟩ := exists_site_of_mem_level above hmem
        have hsame : above ++ [name.text] ∈ (rest.sites above).map Site.way :=
          List.mem_map.mpr ⟨s, hs, hway⟩
        exact hown (List.mem_append_right _ hsame)

theorem Modules.Apart.at?_of_mem {ms : Modules} (h : ms.Apart) {above : List String} {s : Site}
    (hs : s ∈ ms.sites above) (outer : Option Item) : ∃ tail inner,
      s.way = above ++ tail ∧ Place.at? ⟨outer, ms⟩ tail = some ⟨some s.item, inner⟩ := by
  induction h generalizing above outer with
  | nil => cases hs
  | @cons name d item inner rest hnew _ _ ihinner ihrest =>
      rw [sites, List.mem_cons, List.mem_append] at hs
      rcases hs with rfl | hs | hs
      · exact ⟨[name.text], inner, rfl, by simp [Place.at?, find?]⟩
      · obtain ⟨tail, place, hway, hat⟩ := ihinner hs (some item)
        refine ⟨name.text :: tail, place, by simp [hway], ?_⟩
        simpa [Place.at?, find?] using hat
      · obtain ⟨first, hfirst, later, hfront⟩ := level_of_mem_sites hs
        obtain ⟨tail, place, hway, hat⟩ := ihrest hs outer
        -- The way goes through another module of this level.
        obtain rfl : tail = first :: later := by simpa [hway] using hfront
        have hne : name.text ≠ first := fun he => hnew (he ▸ hfirst)
        refine ⟨first :: later, place, hway, ?_⟩
        simpa [Place.at?, find?, hne] using hat

theorem Place.follow_append (top : Place) (way : List String) (path path' : List Step) :
    top.follow way (path ++ path') = (top.follow way path).bind fun way' => top.follow way' path' :=
  List.foldlM_append

theorem Place.follow_up (top : Place) (way : List String) :
    top.follow way (List.replicate way.length .up) = some [] := by
  induction way using List.reverseRecOn with
  | nil => rfl
  | append_singleton way name ih =>
      have hstep : top.step (way ++ [name]) .up = some way := by simp [step]
      rw [List.length_append, List.length_singleton, List.replicate_succ, follow, List.foldlM_cons,
        hstep]
      exact ih

theorem Place.follow_into {top place : Place} {way : List String} (h : top.at? way = some place) :
    top.follow [] (way.map .into) = some way := by
  induction way using List.reverseRecOn generalizing place with
  | nil => rfl
  | append_singleton way name ih =>
      have hlast := h
      rw [at?, List.foldlM_append] at h
      obtain ⟨around, haround, _⟩ := Option.bind_eq_some_iff.mp h
      rw [List.map_append, follow_append, ih haround]
      simp [follow, step, hlast]

theorem exists_row_of_leadsToTag {b : Block} (hrows : b.rows = b.nodes.filterMap Node.row?)
    (hnodes : ∀ n ∈ b.nodes, n.Ordinary) {target : StringLiteral} (h : b.LeadsToTag target) :
    ∃ row ∈ b.rows, row.tag = target.value ∧ ∃ n ∈ b.nodes, Site.ofRow row = n.site := by
  obtain ⟨n, hn, htag, hvalue⟩ := h
  have hrow : n.row? = some ⟨n.path, n.attributes.comment.getD ""⟩ :=
    Node.row?_eq_some.mpr ⟨htag, rfl⟩
  have hmem := hrows ▸ List.mem_filterMap.mpr ⟨n, hn, hrow⟩
  exact ⟨_, hmem, hvalue.symm, n, hn, (hnodes n hn).site_ofRow hrow⟩

/-- The modules of a block of plain words, not nested deeper than a byte can count, belong to its
tables. -/
theorem expand_mirrors {b : Block} (hb : b.Accepted) {x : Expansion} (hx : b.expand = .ok x)
    (hplain : ∀ n ∈ b.nodes, n.Plain) (hshallow : ∀ n ∈ b.nodes, n.way.length ≤ 255) :
    x.Mirrors := by
  obtain ⟨hwf, hs⟩ := hb.declarations
  obtain ⟨hcheck, _, _, rfl⟩ := expand_iff.mp hx
  have htables := tables_of_wellFormed hwf hs
  have hspelt := hs.way_of_mem_nodes (List.forall_mem_nil _)
  have hnodes : ∀ n ∈ b.nodes, n.Ordinary := fun n hn =>
    ⟨hspelt n hn, hplain n hn, Declarations.way_ne_nil hn, hshallow n hn⟩
  have hsites : (Modules.ofDeclarations "" 0 b.declarations).sites [] = b.nodes.map Node.site :=
    sites_ofDeclarations hwf hs (List.forall_mem_nil _)
  have hapart := apart_ofDeclarations hwf hplain "" 0
  have hfound : ∀ n ∈ b.nodes, ∃ inner,
      Place.at? ⟨none, .ofDeclarations "" 0 b.declarations⟩ n.site.way =
        some ⟨some n.site.item, inner⟩ := by
    intro n hn
    obtain ⟨tail, inner, hway, hat⟩ :=
      hapart.at?_of_mem (hsites ▸ List.mem_map_of_mem hn) none
    exact ⟨inner, hway ▸ hat⟩
  constructor <;> rw [hsites]
  case sites =>
      rw [htables.rows, htables.aliases]
      exact perm_sites hnodes
  case apart => exact hsites ▸ (Modules.apart_iff []).mp hapart
  case found => exact List.forall_mem_map.mpr hfound
  case depth =>
      rw [List.forall_mem_map]
      intro n hn path depth comment hitem
      exact (hnodes n hn).depth_of_site hitem
  case leads =>
      rw [List.forall_mem_map]
      intro n hn old climb descent hitem
      obtain ⟨target, htarget, rfl, rfl, rfl⟩ := (hnodes n hn).target_of_site hitem
      have hleads := (check_iff_nodes hwf hs).mp hcheck n hn target htarget
      obtain ⟨row, hrow, hvalue, m, hm, hsite⟩ :=
        exists_row_of_leadsToTag htables.rows hnodes hleads
      obtain ⟨inner, hat⟩ := hfound m hm
      rw [← hsite] at hat
      have halias : (n.path, target) ∈ b.aliases :=
        (mem_aliases hwf hs).mpr ⟨n, hn, htarget, rfl⟩
      refine ⟨Place.follow_up _ _, target, halias, row, hrow, hvalue, ?_, inner, hat⟩
      rw [aliasPath, Place.follow_append, Place.follow_up, ← hvalue]
      exact Place.follow_into hat

/-- Redirects from and to several levels. -/
theorem expand_mirrors_nested :
    let text := "mod Tags \x7b #[comment = \"hits\"] Hit \x7b Fire; " ++
      "Cold \x7b #[redirect = \"Hit.Fire\"] Old; \x7d \x7d #[redirect = \"Hit\"] Burn; \x7d"
    ∃ b x, ofText text = .ok b ∧ b.expand = .ok x ∧ (∀ n ∈ b.nodes, n.Plain) ∧
      (∀ n ∈ b.nodes, n.way.length ≤ 255) ∧ x.Mirrors ∧
      x.tags = ["Hit", "Hit.Fire", "Hit.Cold"] ∧ x.olds = ["Hit.Cold.Old", "Burn"] ∧
      x.top.follow ["Hit", "Cold", "Old"] (aliasPath 3 ["Hit", "Fire"]) = some ["Hit", "Fire"] := by
  intro text
  let target (name : String) : Attributes := { redirect := some ⟨"\"" ++ name ++ "\"", name⟩ }
  let cold : Declarations := .cons ⟨"Old", false⟩ (target "Hit.Fire") .nil .nil
  let ds : Declarations := .cons ⟨"Hit", false⟩ { comment := some "hits" }
    (.cons ⟨"Fire", false⟩ {} .nil (.cons ⟨"Cold", false⟩ {} cold .nil))
    (.cons ⟨"Burn", false⟩ (target "Hit") .nil .nil)
  let b : Block := ⟨.inherited, ⟨"Tags", false⟩, ds⟩
  let x : Expansion := ⟨b.visibility, b.root, b.rows, b.aliases, .ofDeclarations "" 0 ds⟩
  have hread : ofText text = .ok b := by decide +kernel
  have hexpand : b.expand = .ok x := by decide +kernel
  have hplain : ∀ n ∈ b.nodes, n.Plain := by decide +kernel
  have hshallow : ∀ n ∈ b.nodes, n.way.length ≤ 255 := by decide +kernel
  exact ⟨b, x, hread, hexpand, hplain, hshallow,
    expand_mirrors (accepted_of_ofText hread) hexpand hplain hshallow, by decide +kernel,
    by decide +kernel, by decide +kernel⟩

end TagTree.Block
