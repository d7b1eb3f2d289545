import TagTree.Proofs.Block.Form
import TagTree.Proofs.Block.Nodes

/-!
# When blocks are accepted

A block of the grammar is read unless two names on a level are the same or a
redirected node has nodes inside. What was read is expanded if every redirect
leads to a tag of the block, no raw word is on the way to this tag, and no tag
stands below the 255th level. The tables of a block that was read hold every
node once, tags in the one and old names in the other, and a tag stands after
everything its name is below.

All conditions are on the nodes of the block, so the checks, which look at names
and at levels, are rewritten as statements about nodes first. A redirect leads
to a tag if its text is the dotted path of one; the check that it does not lead
to its own old name is then idle, since old names are no tags. Whether a path of
modules can be written is asked of the segments of the target, and these are the
identifiers on the way to the node.

`Acceptance` collects what happens to a block whose tokens have the form of one:
when it is read, when the check passes, when it is expanded and what its tables
hold. A raw word is named like any other node, so a redirect to it passes the
check and stops the expansion.
-/
namespace TagTree

namespace Block

structure Tables (b : Block) : Prop where
  rows : b.rows = b.nodes.filterMap Node.row?
  aliases : b.aliases = b.nodes.filterMap Node.alias?
  /-- Every node is in exactly one of the tables. -/
  once : ∀ n ∈ b.nodes,
    (n.path ∈ b.tags ∧ n.path ∉ b.olds) ∨ (n.path ∈ b.olds ∧ n.path ∉ b.tags)
  tags_nodup : b.tags.Nodup
  olds_nodup : b.olds.Nodup
  disjoint : ∀ t ∈ b.tags, t ∉ b.olds
  /-- Everything that the name of a tag is below is a tag as well and stands before it. -/
  parents_first : ∀ front t back, b.tags = front ++ t :: back →
    ∀ m, Name.DottedPrefix m t → m ≠ t → m ∈ front

section
variable {b : Block} (hwf : b.declarations.WellFormed) (hs : b.declarations.Spelt)
include hwf hs

theorem rows_eq_nodes : b.rows = b.nodes.filterMap Node.row? :=
  Declarations.WellFormed.rows_eq_nodes hs (List.forall_mem_nil _) hwf

theorem aliases_eq_nodes : b.aliases = b.nodes.filterMap Node.alias? :=
  Declarations.WellFormed.aliases_eq_nodes hs (List.forall_mem_nil _) hwf

theorem mem_tags {t : String} : t ∈ b.tags ↔ ∃ n ∈ b.nodes, n.isTag ∧ n.path = t := by
  rw [tags, rows_eq_nodes hwf hs]
  simp only [List.mem_map, List.mem_filterMap, Node.row?_eq_some]
  constructor
  · rintro ⟨row, ⟨n, hn, htag, rfl⟩, rfl⟩
    exact ⟨n, hn, htag, rfl⟩
  · rintro ⟨n, hn, htag, rfl⟩
    exact ⟨_, ⟨n, hn, htag, rfl⟩, rfl⟩

theorem mem_aliases {entry : String × StringLiteral} : entry ∈ b.aliases ↔
    ∃ n ∈ b.nodes, n.attributes.redirect = some entry.2 ∧ entry.1 = n.path := by
  rw [aliases_eq_nodes hwf hs]
  simp only [List.mem_filterMap, Node.alias?_eq_some]

theorem tags_pairwise : b.tags.Pairwise fun s t => ¬ Name.path t <+: Name.path s := by
  rw [tags, rows_eq_nodes hwf hs, List.pairwise_map]
  refine List.Pairwise.filterMap _ ?_ (hwf.node_paths_pairwise hs (List.forall_mem_nil _))
  intro m n hnot row hrow row' hrow'
  obtain ⟨_, rfl⟩ := Node.row?_eq_some.mp hrow
  obtain ⟨_, rfl⟩ := Node.row?_eq_some.mp hrow'
  exact hnot

theorem tables_of_wellFormed : b.Tables := by
  have hperm := hwf.perm_paths ""
  have hnodes := Declarations.paths_eq_nodes hs (List.forall_mem_nil _)
  obtain ⟨htags, holds, hdisjoint⟩ :=
    List.nodup_append.mp (hperm.nodup_iff.mpr (hwf.paths_nodup hs ""))
  constructor
  case rows => exact rows_eq_nodes hwf hs
  case aliases => exact aliases_eq_nodes hwf hs
  case once =>
      intro n hn
      have hpath : n.path ∈ b.declarations.paths "" := hnodes ▸ List.mem_map_of_mem hn
      rcases hwf.mem_paths.mp hpath with htag | hold
      · exact .inl ⟨htag, fun hold => hdisjoint _ htag _ hold rfl⟩
      · exact .inr ⟨hold, fun htag => hdisjoint _ htag _ hold rfl⟩
  case tags_nodup => exact htags
  case olds_nodup => exact holds
  case disjoint => exact fun t ht ht' => hdisjoint t ht t ht' rfl
  case parents_first =>
      intro front t back he m hm hne
      have ht : t ∈ b.tags := he ▸ List.mem_append_right _ List.mem_cons_self
      have hmem : m ∈ b.tags :=
        hwf.mem_tags_of_prefix hs ht List.nil_prefix hm.1 hm.path_prefix
      have hpairwise := tags_pairwise hwf hs
      rw [he, List.pairwise_append, List.pairwise_cons] at hpairwise
      rw [he, List.mem_append, List.mem_cons] at hmem
      rcases hmem with hfront | rfl | hback
      · exact hfront
      · exact absurd rfl hne
      · exact absurd hm.path_prefix (hpairwise.2.1.1 m hback)

end

theorem checkPaths_iff {b : Block} : b.checkPaths = .ok () ↔
    ∀ d ∈ b.redirects, ∀ s ∈ Name.segments d.new, isPathWord s := by
  let segments := b.redirects.flatMap fun d => Name.segments d.new
  have hnone : b.checkPaths = .ok () ↔ segments.find? (fun s => !isPathWord s) = none := by
    rw [checkPaths]
    cases segments.find? fun s => !isPathWord s <;> simp
  rw [hnone, List.find?_eq_none, List.forall_mem_flatMap]
  simp

theorem isPathWord_iff {i : Identifier} (h : i.Spelt) : isPathWord i.name ↔ i.raw = false := by
  obtain ⟨c, rest, htext, hstart, hrest⟩ := h
  obtain ⟨text, raw⟩ := i
  dsimp only at htext
  cases raw with
  | false =>
      have hall : rest.dropWhile isIdentifierContinue = [] := by simpa using hrest
      simp [isPathWord, Identifier.name, htext, wordAt?, hstart, hall]
  | true =>
      have hmark : isIdentifierContinue '#' = false := by decide
      have hfirst : isIdentifierStart 'r' := by decide
      simp [isPathWord, Identifier.name, wordAt?, hfirst, hmark]

theorem checkDepth_iff {b : Block} (hwf : b.declarations.WellFormed) : b.checkDepth = .ok () ↔
    ∀ n ∈ b.nodes, n.isTag → n.way.length ≤ maxLevels := by
  have hlevels := hwf.tagLevels_le [] maxLevels
  rw [List.length_nil, Nat.zero_add] at hlevels
  rw [checkDepth]
  by_cases hle : b.declarations.tagLevels ≤ maxLevels
  · rw [if_pos hle]
    exact iff_of_true rfl (hlevels.mp hle)
  · rw [if_neg hle]
    exact iff_of_false nofun fun hall => hle (hlevels.mpr hall)

/-- That a redirect leads to a tag of the block, which is named by its dotted
path. -/
def LeadsToTag (b : Block) (target : StringLiteral) : Prop :=
  ∃ n ∈ b.nodes, n.isTag ∧ target.value = n.path

/-- That a redirect leads to a tag of the block with only plain words on the way
to it, so that a path of modules can be written. -/
def LeadsPlainly (b : Block) (target : StringLiteral) : Prop :=
  ∃ n ∈ b.nodes, n.isTag ∧ target.value = n.path ∧ ∀ i ∈ n.way, i.raw = false

structure Acceptance (ts : Tokens) (b : Block) : Prop where
  read (b' : Block) : ofTokens ts = .ok b' ↔ b' = b ∧ b.declarations.WellFormed
  checked : b.declarations.WellFormed → (b.check = .ok () ↔
    ∀ n ∈ b.nodes, ∀ target, n.attributes.redirect = some target → b.LeadsToTag target)
  /-- A tag on the 256th level is not expanded; an old name there is. -/
  expanded : b.declarations.WellFormed → ((∃ x, b.expand = .ok x) ↔
    (∀ n ∈ b.nodes, ∀ target, n.attributes.redirect = some target → b.LeadsPlainly target) ∧
    ∀ n ∈ b.nodes, n.isTag → n.way.length ≤ 255)
  tables : b.declarations.WellFormed → b.Tables

section
variable {b : Block} (hwf : b.declarations.WellFormed) (hs : b.declarations.Spelt)
include hwf hs

theorem forall_redirects {p : String → Prop} : (∀ d ∈ b.redirects, p d.new) ↔
    ∀ n ∈ b.nodes, ∀ target, n.attributes.redirect = some target → p target.value := by
  rw [redirects, List.forall_mem_map]
  constructor
  · intro h n hn target htarget
    exact h (n.path, target) ((mem_aliases hwf hs).mpr ⟨n, hn, htarget, rfl⟩)
  · intro h entry hentry
    obtain ⟨n, hn, htarget, _⟩ := (mem_aliases hwf hs).mp hentry
    exact h n hn entry.2 htarget

theorem mem_tags_iff_leadsToTag {target : StringLiteral} :
    target.value ∈ b.tags ↔ b.LeadsToTag target := by
  rw [mem_tags hwf hs, LeadsToTag]
  simp only [eq_comm]

theorem check_iff_nodes : b.check = .ok () ↔
    ∀ n ∈ b.nodes, ∀ target, n.attributes.redirect = some target → b.LeadsToTag target := by
  have hleads : (∀ d ∈ b.redirects, d.new ≠ d.old ∧ d.new ∈ b.tags) ↔
      ∀ d ∈ b.redirects, d.new ∈ b.tags := by
    refine forall₂_congr fun d hd => and_iff_right_of_imp ?_
    intro hnew hself
    obtain ⟨entry, hentry, rfl⟩ := List.mem_map.mp hd
    have hold : entry.1 ∈ b.olds := List.mem_map_of_mem hentry
    exact (tables_of_wellFormed hwf hs).disjoint _ hnew (hself ▸ hold)
  rw [check_iff, hleads, forall_redirects hwf hs]
  simp only [mem_tags_iff_leadsToTag hwf hs]

theorem expand_iff_nodes : (∃ x, b.expand = .ok x) ↔
    (∀ n ∈ b.nodes, ∀ target, n.attributes.redirect = some target → b.LeadsPlainly target) ∧
    ∀ n ∈ b.nodes, n.isTag → n.way.length ≤ 255 := by
  have hplain : ∀ n ∈ b.nodes,
      (∀ s ∈ Name.segments n.path, isPathWord s) ↔ ∀ i ∈ n.way, i.raw = false := by
    intro n hn
    have hway := hs.way_of_mem_nodes (List.forall_mem_nil _) n hn
    rw [Node.path, segments_dotted hway (Declarations.way_ne_nil hn), List.forall_mem_map]
    exact forall₂_congr fun i hi => isPathWord_iff (hway i hi)
  simp only [expand_iff, exists_and_left, exists_eq, and_true]
  rw [check_iff_nodes hwf hs, checkPaths_iff, checkDepth_iff hwf, ← and_assoc,
    forall_redirects (p := fun name => ∀ s ∈ Name.segments name, isPathWord s) hwf hs]
  refine and_congr_left' ?_
  constructor
  · rintro ⟨hleads, hwords⟩ n hn target htarget
    obtain ⟨m, hm, htag, hvalue⟩ := hleads n hn target htarget
    have hword := hwords n hn target htarget
    rw [hvalue, hplain m hm] at hword
    exact ⟨m, hm, htag, hvalue, hword⟩
  · intro h
    refine ⟨fun n hn target htarget => ?_, fun n hn target htarget => ?_⟩
    · obtain ⟨m, hm, htag, hvalue, _⟩ := h n hn target htarget
      exact ⟨m, hm, htag, hvalue⟩
    · obtain ⟨m, hm, _, hvalue, hraw⟩ := h n hn target htarget
      rw [hvalue, hplain m hm]
      exact hraw

end

/-- A block of the grammar is read exactly if it is well formed, and then
expanded exactly if its redirects lead to tags by plain words and its tags are
not too deep. -/
theorem acceptance_of_form {ts : Tokens} {b : Block} (hts : ts.Spelt) (h : BlockForm b ts) :
    Acceptance ts b := by
  have hs := h.declarations_spelt hts
  constructor
  case read => exact h.ofTokens_iff
  case checked => exact fun hwf => check_iff_nodes hwf hs
  case expanded => exact fun hwf => expand_iff_nodes hwf hs
  case tables => exact fun hwf => tables_of_wellFormed hwf hs

/-- A limited visibility, attributes of every kind, and a raw word that no redirect leads to. -/
theorem acceptance_of_form_nested :
    let text := "pub(crate) mod Tags \x7b " ++
      "#[comment = \"hits\"] Hit \x7b r#type \x7b \x7d Fire; \x7d " ++
      "#[deprecated(note = \"moved\")] #[redirect = \"Hit.Fire\"] Burn; \x7d"
    ∃ ts b, Tokens.ofText? text = some ts ∧ ts.Spelt ∧ BlockForm b ts ∧ Acceptance ts b ∧
      b.tags = ["Hit", "Hit.r#type", "Hit.Fire"] ∧ b.olds = ["Burn"] ∧
      ∃ x, ofTokens ts = .ok b ∧ b.expand = .ok x := by
  intro text
  let target : StringLiteral := ⟨"\"Hit.Fire\"", "Hit.Fire"⟩
  let moved : Attributes := { deprecation := some ⟨some "moved"⟩, redirect := some target }
  let ds : Declarations := .cons ⟨"Hit", false⟩ { comment := some "hits" }
    (.cons ⟨"type", true⟩ {} .nil (.cons ⟨"Fire", false⟩ {} .nil .nil))
    (.cons ⟨"Burn", false⟩ moved .nil .nil)
  let b : Block := ⟨.upTo ⟨"crate", false⟩, ⟨"Tags", false⟩, ds⟩
  let x : Expansion := ⟨b.visibility, b.root, b.rows, b.aliases, .ofDeclarations "" 0 ds⟩
  have hread : ofText text = .ok b := by decide +kernel
  obtain ⟨ts, hts, hread⟩ := exists_tokens_of_ofText hread
  have hspelt := Tokens.ofText?_spelt hts
  have hform := blockForm_of_ofTokens hread
  exact ⟨ts, b, hts, hspelt, hform, acceptance_of_form hspelt hform, by decide +kernel,
    by decide +kernel, x, hread, by decide +kernel⟩

/-- A block that is read, with a redirect that leads to a tag, and that is not expanded: no path of
modules is written with the raw word. -/
theorem acceptance_raw_target :
    let text := "mod Tags \x7b r#type; #[redirect = \"r#type\"] Old; \x7d"
    ∃ b, ofText text = .ok b ∧
      (∀ n ∈ b.nodes, ∀ target, n.attributes.redirect = some target → b.LeadsToTag target) ∧
      b.expand = .error (.notAWord "r#type") := by
  intro text
  let target : StringLiteral := ⟨"\"r#type\"", "r#type"⟩
  let ds : Declarations := .cons ⟨"type", true⟩ {} .nil
    (.cons ⟨"Old", false⟩ { redirect := some target } .nil .nil)
  let b : Block := ⟨.inherited, ⟨"Tags", false⟩, ds⟩
  have hread : ofText text = .ok b := by decide +kernel
  obtain ⟨hwf, hs⟩ := (accepted_of_ofText hread).declarations
  exact ⟨b, hread, (check_iff_nodes hwf hs).mp (by decide +kernel), by decide +kernel⟩

end Block
end TagTree
