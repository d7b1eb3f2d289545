import TagTree.Block.Grammar
import TagTree.Block.Module
import TagTree.Error
import TagTree.Proofs.Block.Spelling
import TagTree.Proofs.Name.Lineage

/-!
# What accepted blocks declare

Reading checks that the names on a level differ and that redirected declarations
have nothing inside. The paths of all declarations are then different, since a
path tells the name on every level that it passes, and each is either the name
of a tag or an old name. With a tag, all names on the way to it are tags as
well. Expanding checks that redirects lead to tags, so the tables of an expanded
block fit together.

`WellFormed` is what reading guarantees of the tree: new names on every level,
and nothing inside a redirected declaration. `Spelt` is what cutting into words
guarantees: every name is an identifier, so it is a plain segment. Both are
inductive along the tree, and each fact about paths is an induction that uses
one or both of them.

`Coherent` states what the two tables of an expanded block have to do with one
another: no name twice in both together, with a tag everything on the way to it,
only legible names, and targets that are tags. Registering a block uses these
facts and nothing else about how the block was written.
-/
namespace TagTree.Block

namespace Declarations

def level : Declarations → List Identifier
  | nil => []
  | cons name _ _ rest => name :: rest.level

/-- On every level the names differ, and nothing is inside a redirected declaration. -/
inductive WellFormed : Declarations → Prop
  | nil : WellFormed .nil
  | cons {name : Identifier} {a : Attributes} {children rest : Declarations} :
      name ∉ rest.level → (a.redirect.isSome → children = .nil) → children.WellFormed →
      rest.WellFormed → WellFormed (.cons name a children rest)

def Spelt : Declarations → Prop
  | nil => True
  | cons name _ children rest => name.Spelt ∧ children.Spelt ∧ rest.Spelt

end Declarations

/-- A declaration of a new name in front of others. -/
theorem Declarations.WellFormed.cons_new {seen : List Identifier} {name : Identifier}
    {a : Attributes} {children rest : Declarations} (hnew : name ∉ seen)
    (hleaf : a.redirect.isSome → children = .nil) (hchildren : children.WellFormed)
    (hrest : rest.WellFormed ∧ ∀ i ∈ rest.level, i ∉ name :: seen) :
    let ds := Declarations.cons name a children rest
    ds.WellFormed ∧ ∀ i ∈ ds.level, i ∉ seen := by
  obtain ⟨hrest, hlevel⟩ := hrest
  refine ⟨.cons ?_ hleaf hchildren hrest, List.forall_mem_cons.mpr ⟨hnew, ?_⟩⟩
  · intro hmem
    exact hlevel name hmem List.mem_cons_self
  · intro i hi hmem
    exact hlevel i hi (List.mem_cons_of_mem _ hmem)

theorem readDeclarations_wellFormed {pending : Option Attributes} {seen : List Identifier}
    {ts : Tokens} {ds : Declarations} (h : readDeclarations pending seen ts = .ok ds) :
    ds.WellFormed ∧ ∀ i ∈ ds.level, i ∉ seen := by
  -- After the end, an attribute, declarations in braces and a semicolon; anything else is refused.
  fun_induction readDeclarations pending seen ts generalizing ds with
  | case1 =>
      cases h
      exact ⟨.nil, List.forall_mem_nil _⟩
  | case3 pending seen joined inner rest ih =>
      obtain ⟨a, _, h⟩ := bind_eq_ok.mp h
      exact ih a h
  | case6 =>
      rename_i pending seen name _ hnew a inner rest ihinner ihrest
      obtain ⟨children, hchildren, h⟩ := bind_eq_ok.mp h
      split at h
      · cases h
      · rename_i hredirect
        obtain ⟨later, hlater, h⟩ := bind_eq_ok.mp h
        cases h
        have hleaf : a.redirect.isSome → children = .nil := by
          intro ha
          cases children with
          | nil => rfl
          | cons => exact absurd ⟨ha, rfl⟩ hredirect
        exact Declarations.WellFormed.cons_new (by simpa using hnew) hleaf (ihinner hchildren).1
          (ihrest hlater)
  | case7 =>
      rename_i pending seen name _ hnew a joined rest ih
      obtain ⟨later, hlater, h⟩ := bind_eq_ok.mp h
      cases h
      exact Declarations.WellFormed.cons_new (by simpa using hnew) (fun _ => rfl) .nil (ih hlater)
  | _ => cases h

theorem readDeclarations_spelt {pending : Option Attributes} {seen : List Identifier}
    {ts : Tokens} (hts : ts.Spelt) {ds : Declarations}
    (h : readDeclarations pending seen ts = .ok ds) : ds.Spelt := by
  fun_induction readDeclarations pending seen ts generalizing ds with
  | case1 =>
      cases h
      trivial
  | case3 pending seen joined inner rest ih =>
      obtain ⟨a, _, h⟩ := bind_eq_ok.mp h
      exact ih a hts.2 h
  | case6 =>
      rename_i pending seen name _ hnew a inner rest ihinner ihrest
      obtain ⟨children, hchildren, h⟩ := bind_eq_ok.mp h
      split at h
      · cases h
      · obtain ⟨later, hlater, h⟩ := bind_eq_ok.mp h
        cases h
        exact ⟨hts.1, ihinner hts.2.1 hchildren, ihrest hts.2.2 hlater⟩
  | case7 =>
      rename_i pending seen name _ hnew a joined rest ih
      obtain ⟨later, hlater, h⟩ := bind_eq_ok.mp h
      cases h
      exact ⟨hts.1, trivial, ih hts.2 hlater⟩
  | _ => cases h

namespace Declarations

def paths (above : String) : Declarations → List String
  | nil => []
  | cons name _ children rest =>
    let path := Name.child above name.name
    path :: children.paths path ++ rest.paths above

def tags (above : String) (ds : Declarations) : List String := (ds.rows above).map (·.tag)

def olds (above : String) (ds : Declarations) : List String := (ds.aliases above).map (·.1)

section
variable {name : Identifier} {a : Attributes} {children rest : Declarations}

theorem tags_cons_none (ha : a.redirect = none) (above : String) :
    (cons name a children rest).tags above = Name.child above name.name ::
      (children.tags (Name.child above name.name) ++ rest.tags above) := by
  simp [tags, rows, ha]

theorem tags_cons_some {target : StringLiteral} (ha : a.redirect = some target) (above : String) :
    (cons name a children rest).tags above = rest.tags above := by
  simp [tags, rows, ha]

theorem olds_cons_none (ha : a.redirect = none) (above : String) :
    (cons name a children rest).olds above =
      children.olds (Name.child above name.name) ++ rest.olds above := by
  simp [olds, aliases, ha]

theorem olds_cons_some {target : StringLiteral} (ha : a.redirect = some target) (above : String) :
    (cons name a children rest).olds above = Name.child above name.name :: rest.olds above := by
  simp [olds, aliases, ha]

end

theorem WellFormed.perm_paths {ds : Declarations} (h : ds.WellFormed) (above : String) :
    (ds.tags above ++ ds.olds above).Perm (ds.paths above) := by
  induction h generalizing above with
  | nil => exact .refl _
  | @cons name a children rest _ hleaf _ _ ihchildren ihrest =>
      cases ha : a.redirect with
      | some target =>
          rw [tags_cons_some ha, olds_cons_some ha, paths, hleaf (by simp [ha])]
          exact List.perm_middle.trans ((ihrest above).cons _)
      | none =>
          have hboth := (ihchildren (Name.child above name.name)).append (ihrest above)
          rw [tags_cons_none ha, olds_cons_none ha, paths]
          refine .cons _ (.trans ?_ hboth)
          rw [List.append_eq, List.append_assoc, List.append_assoc]
          exact (List.perm_append_comm_assoc ..).append_left _

theorem WellFormed.mem_paths {ds : Declarations} (h : ds.WellFormed) {above t : String} :
    t ∈ ds.paths above ↔ t ∈ ds.tags above ∨ t ∈ ds.olds above := by
  rw [← (h.perm_paths above).mem_iff, List.mem_append]

theorem Spelt.of_mem_level {ds : Declarations} (h : ds.Spelt) {i : Identifier} (hi : i ∈ ds.level) :
    i.Spelt := by
  induction ds with
  | nil => cases hi
  | cons name a children rest _ ihrest =>
      obtain ⟨hname, _, hrest⟩ := h
      rcases List.mem_cons.mp hi with rfl | hi
      · exact hname
      · exact ihrest hrest hi

/-- Every path extends that of a declaration of the outermost level. -/
theorem Spelt.path_prefix {ds : Declarations} (h : ds.Spelt) {above t : String}
    (ht : t ∈ ds.paths above) :
    ∃ i ∈ ds.level, Name.path above ++ [i.name] <+: Name.path t := by
  induction ds generalizing above with
  | nil => cases ht
  | cons name a children rest ihchildren ihrest =>
      obtain ⟨hname, hchildren, hrest⟩ := h
      have hpath := Name.path_child above hname.plain
      rw [paths, List.cons_append, List.mem_cons, List.mem_append] at ht
      rcases ht with rfl | ht | ht
      · exact ⟨name, List.mem_cons_self, hpath ▸ List.prefix_refl _⟩
      · obtain ⟨i, _, hi⟩ := ihchildren hchildren ht
        rw [hpath] at hi
        exact ⟨name, List.mem_cons_self, (List.prefix_append _ _).trans hi⟩
      · obtain ⟨i, hi, hprefix⟩ := ihrest hrest ht
        exact ⟨i, List.mem_cons_of_mem _ hi, hprefix⟩

theorem Spelt.path_above {ds : Declarations} (h : ds.Spelt) {above t : String}
    (ht : t ∈ ds.paths above) : Name.path above <+: Name.path t := by
  obtain ⟨i, _, hi⟩ := h.path_prefix ht
  exact (List.prefix_append _ _).trans hi

theorem eq_of_snoc_prefix {α : Type} {p q : List α} {x y : α} (hx : p ++ [x] <+: q)
    (hy : p ++ [y] <+: q) : x = y := by
  have hsame := (List.prefix_of_prefix_length_le hx hy (by simp)).eq_of_length (by simp)
  simpa using hsame

/-- No path extends that of a name that the outermost level does not declare. -/
theorem Spelt.not_path_prefix {ds : Declarations} (h : ds.Spelt) {name : Identifier}
    (hname : name.Spelt) (hnew : name ∉ ds.level) {above t : String} (ht : t ∈ ds.paths above) :
    ¬ Name.path above ++ [name.name] <+: Name.path t := by
  intro hprefix
  obtain ⟨i, hi, hi'⟩ := h.path_prefix ht
  have hnames := eq_of_snoc_prefix hprefix hi'
  rw [hname.name_inj (h.of_mem_level hi)] at hnames
  exact hnew (hnames ▸ hi)

theorem WellFormed.paths_nodup {ds : Declarations} (h : ds.WellFormed) (hs : ds.Spelt)
    (above : String) : (ds.paths above).Nodup := by
  induction h generalizing above with
  | nil => exact .nil
  | @cons name a children rest hnew _ _ _ ihchildren ihrest =>
      obtain ⟨hname, hchildren, hrest⟩ := hs
      have hpath := Name.path_child above hname.plain
      have hinside : ∀ t ∈ children.paths (Name.child above name.name),
          ∃ i : Identifier, Name.path above ++ [name.name] ++ [i.name] <+: Name.path t := by
        intro t ht
        obtain ⟨i, _, hi⟩ := hchildren.path_prefix ht
        exact ⟨i, hpath ▸ hi⟩
      rw [paths, List.cons_append, List.nodup_cons, List.mem_append, List.nodup_append]
      refine ⟨?_, ihchildren hchildren _, ihrest hrest above, ?_⟩
      · rintro (ht | ht)
        · obtain ⟨i, hi⟩ := hinside _ ht
          have hlength := hi.length_le
          simp [hpath] at hlength
        · exact hrest.not_path_prefix hname hnew ht (hpath ▸ List.prefix_refl _)
      · rintro t ht _ ht' rfl
        obtain ⟨i, hi⟩ := hinside t ht
        exact hrest.not_path_prefix hname hnew ht' ((List.prefix_append _ _).trans hi)

/-- With a tag, everything on the way to it is declared as a tag. -/
theorem WellFormed.mem_tags_of_prefix {ds : Declarations} (h : ds.WellFormed) (hs : ds.Spelt)
    {above m t : String} (ht : t ∈ ds.tags above) (habove : Name.path above <+: Name.path m)
    (hne : m ≠ above) (hway : Name.path m <+: Name.path t) : m ∈ ds.tags above := by
  induction h generalizing above with
  | nil => cases ht
  | @cons name a children rest _ _ hwf _ ihchildren ihrest =>
      obtain ⟨hname, hchildren, hrest⟩ := hs
      have hpath := Name.path_child above hname.plain
      cases ha : a.redirect with
      | some target =>
          rw [tags_cons_some ha] at ht ⊢
          exact ihrest hrest ht habove hne
      | none =>
          rw [tags_cons_none ha, List.mem_cons, List.mem_append] at ht ⊢
          generalize Name.child above name.name = own at hpath ht ihchildren ⊢
          by_cases hown : m = own
          · exact .inl hown
          -- A name on the way to the declared one lies above this level.
          have hnot : ¬ Name.path m <+: Name.path own := by
            rw [hpath, List.prefix_concat_iff, ← hpath]
            rintro (he | hle)
            · exact hown (Name.path_inj.mp he)
            · exact hne (Name.eq_of_path_prefix hle habove)
          rcases ht with rfl | ht | ht
          · exact absurd hway hnot
          · have hinside := hchildren.path_above (hwf.mem_paths.mpr (.inl ht))
            have hdeeper := (List.prefix_or_prefix_of_prefix hway hinside).resolve_left hnot
            exact .inr (.inl (ihchildren hchildren ht hdeeper hown))
          · exact .inr (.inr (ihrest hrest ht habove hne))

theorem Spelt.legible {ds : Declarations} (h : ds.Spelt) {above t : String}
    (habove : above = "" ∨ Name.Legible above) (ht : t ∈ ds.paths above) : Name.Legible t := by
  induction ds generalizing above with
  | nil => cases ht
  | cons name a children rest ihchildren ihrest =>
      obtain ⟨hname, hchildren, hrest⟩ := h
      have hpath := Name.Legible.child habove hname.legible hname.plain.2
      rw [paths, List.cons_append, List.mem_cons, List.mem_append] at ht
      rcases ht with rfl | ht | ht
      · exact hpath
      · exact ihchildren hchildren (.inr hpath) ht
      · exact ihrest hrest habove ht

end Declarations

/-- A block that is read from some tokens whose words are identifiers. -/
def Accepted (b : Block) : Prop := ∃ ts : Tokens, ts.Spelt ∧ ofTokens ts = .ok b

theorem exists_tokens_of_ofText {text : String} {b : Block} (h : ofText text = .ok b) :
    ∃ ts, Tokens.ofText? text = some ts ∧ ofTokens ts = .ok b := by
  unfold ofText at h
  split at h
  · rename_i ts hts
    exact ⟨ts, hts, h⟩
  · cases h

theorem accepted_of_ofText {text : String} {b : Block} (h : ofText text = .ok b) : b.Accepted := by
  obtain ⟨ts, hts, hread⟩ := exists_tokens_of_ofText h
  exact ⟨ts, Tokens.ofText?_spelt hts, hread⟩

theorem visibilityOf?_spelt {ts left rest : Tokens} {v : Visibility} (hts : ts.Spelt)
    (h : visibilityOf? ts = some (v, left, rest)) : rest.Spelt := by
  unfold visibilityOf? at h
  split at h
  · split at h
    · split at h
      · obtain ⟨_, _, heq⟩ := Option.map_eq_some_iff.mp h
        cases heq
        exact hts.2.2
      · cases h
        exact hts.2
    · cases h
      exact hts
  · cases h
    exact hts

theorem headOf?_spelt {ts left inner rest : Tokens} {v : Visibility} {root : Identifier}
    (hts : ts.Spelt) (h : headOf? ts = some (v, left, root, inner, rest)) : inner.Spelt := by
  unfold headOf? at h
  split at h
  · rename_i hv
    split at h
    · cases h
      exact (visibilityOf?_spelt hts hv).2.2.1
    · cases h
  · cases h

theorem Accepted.declarations {b : Block} (h : b.Accepted) :
    b.declarations.WellFormed ∧ b.declarations.Spelt := by
  obtain ⟨ts, hts, h⟩ := h
  unfold ofTokens at h
  split at h
  · rename_i hhead
    obtain ⟨ds, hds, h⟩ := bind_eq_ok.mp h
    split at h
    · cases h
      exact ⟨(readDeclarations_wellFormed hds).1, readDeclarations_spelt (headOf?_spelt hts hhead) hds⟩
    · cases h
  · cases h

def tags (b : Block) : List String := b.rows.map (·.tag)

def olds (b : Block) : List String := b.aliases.map (·.1)

def Expansion.tags (x : Expansion) : List String := x.rows.map (·.tag)

def Expansion.olds (x : Expansion) : List String := x.redirects.map (·.old)

/-- What holds of the tables of an accepted block. -/
structure Expansion.Coherent (x : Expansion) : Prop where
  /-- No name is declared twice. -/
  nodup : (x.tags ++ x.olds).Nodup
  closed : ∀ t ∈ x.tags, ∀ m, Name.DottedPrefix m t → m ∈ x.tags
  legible : ∀ t ∈ x.tags ++ x.olds, Name.Legible t
  targets : ∀ d ∈ x.redirects, d.new ∈ x.tags

namespace Expansion.Coherent
variable {x : Expansion} (h : x.Coherent)
include h

theorem tags_nodup : x.tags.Nodup := (List.nodup_append.mp h.nodup).1

theorem olds_nodup : x.olds.Nodup := (List.nodup_append.mp h.nodup).2.1

theorem old_not_mem {d : Redirect} (hd : d ∈ x.redirects) : d.old ∉ x.tags := by
  intro hmem
  exact (List.nodup_append.mp h.nodup).2.2 d.old hmem d.old (List.mem_map_of_mem hd) rfl

/-- A declared tag is refused for no other fault than being of the reserved name. -/
theorem valid_iff {t : String} (ht : t ∈ x.tags) : Name.Valid t ↔ t ≠ Name.none := by
  rw [Name.valid_iff_legible, and_iff_right (h.legible t (List.mem_append_left _ ht))]

end Expansion.Coherent

theorem check_iff {b : Block} :
    b.check = .ok () ↔ ∀ d ∈ b.redirects, d.new ≠ d.old ∧ d.new ∈ b.tags := by
  have hnone : b.check = .ok () ↔ b.redirects.findSome? (redirectFault? b.rows) = none := by
    rw [check]
    cases b.redirects.findSome? (redirectFault? b.rows) <;> simp
  rw [hnone, List.findSome?_eq_none_iff]
  refine forall₂_congr fun d _ => ?_
  by_cases hself : d.new = d.old
  · simp [redirectFault?, hself]
  · simp [redirectFault?, hself, tags]

theorem expand_iff {b : Block} {x : Expansion} : b.expand = .ok x ↔
    b.check = .ok () ∧ b.checkPaths = .ok () ∧ b.checkDepth = .ok () ∧
      x = ⟨b.visibility, b.root, b.rows, b.aliases, .ofDeclarations "" 0 b.declarations⟩ := by
  constructor
  · intro h
    obtain ⟨_, hcheck, h⟩ := bind_eq_ok.mp h
    obtain ⟨_, hpaths, h⟩ := bind_eq_ok.mp h
    obtain ⟨_, hdepth, h⟩ := bind_eq_ok.mp h
    exact ⟨hcheck, hpaths, hdepth, (Except.ok.inj h).symm⟩
  · rintro ⟨hcheck, hpaths, hdepth, rfl⟩
    rw [expand, hcheck, ok_bind, hpaths, ok_bind, hdepth]
    rfl

theorem expand_coherent {b : Block} (hb : b.Accepted) {x : Expansion} (hx : b.expand = .ok x) :
    x.Coherent := by
  obtain ⟨hwf, hs⟩ := hb.declarations
  obtain ⟨hcheck, _, _, rfl⟩ := expand_iff.mp hx
  have holds : b.redirects.map (·.old) = b.declarations.olds "" := by
    rw [redirects, List.map_map]
    rfl
  have hperm := hwf.perm_paths ""
  constructor
  case nodup =>
      show (b.declarations.tags "" ++ b.redirects.map (·.old)).Nodup
      rw [holds, hperm.nodup_iff]
      exact hwf.paths_nodup hs ""
  case closed =>
      intro t ht m hm
      exact hwf.mem_tags_of_prefix hs ht List.nil_prefix hm.1 hm.path_prefix
  case legible =>
      intro t ht
      have ht' : t ∈ b.declarations.tags "" ++ b.declarations.olds "" := holds ▸ ht
      exact hs.legible (.inl rfl) (hperm.mem_iff.mp ht')
  case targets => exact fun r hr => (check_iff.mp hcheck r hr).2

end TagTree.Block
