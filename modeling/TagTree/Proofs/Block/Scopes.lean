import TagTree.Proofs.Block.Mirroring

/-!
# Names in the scopes of an expanded block

In the module of a tag there is a type besides the modules of the tags below,
and in the module of an old name there is only a type. All these types have one
name, and reading a block does not keep this name from being declared. Nor does
it compare names without the mark of raw words, as scopes do. There are no other
ways for names to clash: the names in every scope differ exactly if the ways to
the nodes differ even without the marks and the name of the types is declared on
the outermost level at most.

The scopes of the modules are listed as lists of names, one for each module,
with the name of the type in it. That all of them are free of repetitions is
unfolded along the tree of modules into two conditions: the names on every level
differ, and the name of the types is not declared inside a tag. Both are then
read as conditions on the ways to the nodes, with the marks of raw words taken
off.

The root module holds no type, so the name may be declared on the outermost
level. A raw word and the same plain word are two names for the reader of a
block and one name in a scope.
-/
namespace TagTree.Block

def Item.types : Item → List String
  | .tag .. => ["Tag"]
  | .alias .. => ["Tag"]

/-- For each module, those around others first, the names of the types and modules in it. -/
def Modules.scopes : Modules → List (List String)
  | nil => []
  | cons _ _ item inner rest => (item.types ++ inner.level) :: (inner.scopes ++ rest.scopes)

def Expansion.scopes (x : Expansion) : List (List String) := x.modules.level :: x.modules.scopes

theorem Item.types_eq (item : Item) : item.types = ["Tag"] := by
  cases item <;> rfl

def EndsInType (way : List String) : Prop := way.getLast? = some "Tag"

instance (way : List String) : Decidable (EndsInType way) :=
  inferInstanceAs (Decidable (way.getLast? = some "Tag"))

namespace Modules

theorem scopes_cons_iff {name : Identifier} {d : Option Deprecation} {item : Item}
    {inner rest : Modules} :
    (∀ scope ∈ (cons name d item inner rest).level :: (cons name d item inner rest).scopes,
      scope.Nodup) ↔ name.text ∉ rest.level ∧ "Tag" ∉ inner.level ∧
      (∀ scope ∈ inner.level :: inner.scopes, scope.Nodup) ∧
      ∀ scope ∈ rest.level :: rest.scopes, scope.Nodup := by
  simp only [level, scopes, Item.types_eq, List.forall_mem_cons, List.forall_mem_append,
    List.nodup_cons, List.singleton_append]
  tauto

theorem apart_cons_iff {name : Identifier} {d : Option Deprecation} {item : Item}
    {inner rest : Modules} : (cons name d item inner rest).Apart ↔
      name.text ∉ rest.level ∧ inner.Apart ∧ rest.Apart := by
  constructor
  · rintro ⟨⟩
    exact ⟨‹_›, ‹_›, ‹_›⟩
  · rintro ⟨hnew, hinner, hrest⟩
    exact .cons hnew hinner hrest

/-- No module has the name of the types exactly if none of this level has it and only those of this
level may have it. -/
theorem no_type_iff {ms : Modules} {above : List String} :
    (∀ s ∈ ms.sites above, ¬ EndsInType s.way) ↔ "Tag" ∉ ms.level ∧
      ∀ s ∈ ms.sites above, EndsInType s.way → s.way.length = above.length + 1 := by
  constructor
  · intro h
    refine ⟨?_, fun s hs hends => absurd hends (h s hs)⟩
    intro hmem
    obtain ⟨s, hs, hway⟩ := exists_site_of_mem_level above hmem
    exact h s hs (by simp [EndsInType, hway])
  · rintro ⟨hlevel, h⟩ s hs hends
    have hlength := h s hs hends
    obtain ⟨first, hfirst, tail, hway⟩ := level_of_mem_sites hs
    obtain rfl : tail = [] := by simpa [hway] using hlength
    obtain rfl : first = "Tag" := by simpa [EndsInType, hway] using hends
    exact hlevel hfirst

theorem types_cons_iff {name : Identifier} {d : Option Deprecation} {item : Item}
    {inner rest : Modules} {above : List String} :
    (∀ s ∈ (cons name d item inner rest).sites above, EndsInType s.way →
      s.way.length = above.length + 1) ↔
      (∀ s ∈ inner.sites (above ++ [name.text]), ¬ EndsInType s.way) ∧
      ∀ s ∈ rest.sites above, EndsInType s.way → s.way.length = above.length + 1 := by
  have hinner : (∀ s ∈ inner.sites (above ++ [name.text]), EndsInType s.way →
      s.way.length = above.length + 1) ↔
      ∀ s ∈ inner.sites (above ++ [name.text]), ¬ EndsInType s.way := by
    refine forall₂_congr fun s hs => ?_
    obtain ⟨first, _, tail, hway⟩ := level_of_mem_sites hs
    have hlength : s.way.length ≠ above.length + 1 := by simp [hway]
    simp [hlength]
  rw [sites, List.forall_mem_cons, List.forall_mem_append, hinner]
  simp

/-- The names in every scope differ exactly if modules are apart and none below the outermost level
has the name of the types. -/
theorem scopes_nodup_iff {ms : Modules} (above : List String) :
    (∀ scope ∈ ms.level :: ms.scopes, scope.Nodup) ↔ ms.Apart ∧
      ∀ s ∈ ms.sites above, EndsInType s.way → s.way.length = above.length + 1 := by
  induction ms generalizing above with
  | nil =>
      have hnil : ∀ scope ∈ nil.level :: nil.scopes, scope.Nodup := by simp [level, scopes]
      exact iff_of_true hnil ⟨.nil, List.forall_mem_nil _⟩
  | cons name d item inner rest ihinner ihrest =>
      rw [scopes_cons_iff, apart_cons_iff, types_cons_iff, no_type_iff,
        ihinner (above ++ [name.text]), ihrest above]
      tauto

end Modules

/-- The names in the scopes of an expanded block differ exactly if the ways to its nodes differ
without the marks of raw words and no node below the outermost level has the name of the types. -/
theorem expand_scopes {b : Block} (hb : b.Accepted) {x : Expansion} (hx : b.expand = .ok x) :
    (∀ scope ∈ x.scopes, scope.Nodup) ↔
      (b.nodes.map fun n => n.way.map (·.text)).Nodup ∧
      ∀ n ∈ b.nodes, EndsInType (n.way.map (·.text)) → n.way.length = 1 := by
  obtain ⟨hwf, hs⟩ := hb.declarations
  obtain ⟨_, _, _, rfl⟩ := expand_iff.mp hx
  have hsites : (Modules.ofDeclarations "" 0 b.declarations).sites [] = b.nodes.map Node.site :=
    sites_ofDeclarations hwf hs (List.forall_mem_nil _)
  rw [Expansion.scopes, Modules.scopes_nodup_iff [], Modules.apart_iff [], hsites, List.map_map,
    List.forall_mem_map]
  simp only [Node.site, List.length_map, List.length_nil, Nat.zero_add, Function.comp_def]

/-- The name of the types on the outermost level, a raw word, and a name declared at three places. -/
theorem expand_scopes_apart :
    let text := "mod Tags \x7b Tag \x7b A; r#type \x7b A; \x7d \x7d #[redirect = \"Tag.A\"] A; \x7d"
    ∃ b x, ofText text = .ok b ∧ b.expand = .ok x ∧
      x.scopes = [["Tag", "A"], ["Tag", "A", "type"], ["Tag"], ["Tag", "A"], ["Tag"], ["Tag"]] ∧
      ∀ scope ∈ x.scopes, scope.Nodup := by
  intro text
  let target : StringLiteral := ⟨"\"Tag.A\"", "Tag.A"⟩
  let ds : Declarations := .cons ⟨"Tag", false⟩ {}
    (.cons ⟨"A", false⟩ {} .nil (.cons ⟨"type", true⟩ {} (.cons ⟨"A", false⟩ {} .nil .nil) .nil))
    (.cons ⟨"A", false⟩ { redirect := some target } .nil .nil)
  let b : Block := ⟨.inherited, ⟨"Tags", false⟩, ds⟩
  let x : Expansion := ⟨b.visibility, b.root, b.rows, b.aliases, .ofDeclarations "" 0 ds⟩
  have hread : ofText text = .ok b := by decide +kernel
  have hexpand : b.expand = .ok x := by decide +kernel
  refine ⟨b, x, hread, hexpand, by decide +kernel, ?_⟩
  have hb := accepted_of_ofText hread
  exact (expand_scopes hb hexpand).mpr ⟨by decide +kernel, by decide +kernel⟩

/-- Two blocks that are accepted and expanded although a scope has a name twice: that of a type and a
module, and that of two modules. -/
theorem expand_scopes_clash :
    (∃ b x, ofText "mod Tags \x7b A \x7b Tag; \x7d \x7d" = .ok b ∧ b.expand = .ok x ∧
      ["Tag", "Tag"] ∈ x.scopes) ∧
    ∃ b x, ofText "mod Tags \x7b A; r#A; \x7d" = .ok b ∧ b.expand = .ok x ∧
      ["A", "A"] ∈ x.scopes := by
  let inside : Block := ⟨.inherited, ⟨"Tags", false⟩,
    .cons ⟨"A", false⟩ {} (.cons ⟨"Tag", false⟩ {} .nil .nil) .nil⟩
  let beside : Block := ⟨.inherited, ⟨"Tags", false⟩,
    .cons ⟨"A", false⟩ {} .nil (.cons ⟨"A", true⟩ {} .nil .nil)⟩
  let expansion (b : Block) : Expansion :=
    ⟨b.visibility, b.root, b.rows, b.aliases, .ofDeclarations "" 0 b.declarations⟩
  refine ⟨⟨inside, expansion inside, ?_⟩, beside, expansion beside, ?_⟩ <;> decide +kernel

end TagTree.Block
