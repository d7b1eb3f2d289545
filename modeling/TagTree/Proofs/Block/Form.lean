import TagTree.Proofs.Block.Declared

/-!
# The grammar of blocks

Which tokens are a block is said here without the reader, as relations between
tokens and what they spell. Attributes stand in front of a name, each with the
tokens it needs and no others. The reader accepts a block of this form unless
two names on a level are the same or a redirected declaration has something
inside, and it accepts nothing else.

The relations follow the grammar. An attribute is a setting with the tokens in
its brackets, a declaration is a name with its settings and either a semicolon
or a group in braces, and a block is a visibility, a head and a group. Nothing
here says in which order a reader looks at the tokens, how it waits for a name,
or where a fault is told.

The proof that the reader accepts these forms goes along the derivation and
carries the attributes that were read so far. The converse goes along the
recursion of the reader; tokens left over inside an attribute are noted on the
way and rule the block out in the end, so a reading without such a note has the
form of a derivation at every declaration. Both are assembled into one
equivalence, in which the two conditions that are not grammar stand on their
own.
-/
namespace TagTree.Block

inductive Setting where
  | comment (text : StringLiteral)
  | redirect (target : StringLiteral)
  | deprecated
  | deprecatedFor (note : StringLiteral)

def Setting.apply (a : Attributes) : Setting → Attributes
  | .comment text => { a with comment := some text.value }
  | .redirect target => { a with redirect := some target }
  | .deprecated => { a with deprecation := some (a.deprecation.getD {}) }
  | .deprecatedFor note => { a with deprecation := some ⟨some note.value⟩ }

def Attributes.ofSettings (ss : List Setting) : Attributes := ss.foldl Setting.apply {}

inductive ValueForm : StringLiteral → Tokens → Prop
  | mk {s : StringLiteral} {joined : Bool} {written : String} : StringLiteral.of? written = some s →
      ValueForm s (.punct '=' joined (.literal written .nil))

inductive SettingForm : Setting → Tokens → Prop
  | comment {s : StringLiteral} {ts : Tokens} : ValueForm s ts →
      SettingForm (.comment s) (.word ⟨"comment", false⟩ ts)
  | redirect {s : StringLiteral} {ts : Tokens} : ValueForm s ts →
      SettingForm (.redirect s) (.word ⟨"redirect", false⟩ ts)
  | deprecated : SettingForm .deprecated (.word ⟨"deprecated", false⟩ .nil)
  | deprecatedEmpty :
      SettingForm .deprecated (.word ⟨"deprecated", false⟩ (.group .paren .nil .nil))
  | deprecatedFor {s : StringLiteral} {ts : Tokens} : ValueForm s ts →
      SettingForm (.deprecatedFor s)
        (.word ⟨"deprecated", false⟩ (.group .paren (.word ⟨"note", false⟩ ts) .nil))

/-- Attributes at the front of some tokens, and what follows them. -/
inductive AttributesForm : List Setting → Tokens → Tokens → Prop
  | nil {rest : Tokens} : AttributesForm [] rest rest
  | cons {s : Setting} {ss : List Setting} {joined : Bool} {inner ts rest : Tokens} :
      SettingForm s inner → AttributesForm ss ts rest →
      AttributesForm (s :: ss) (.punct '#' joined (.group .bracket inner ts)) rest

/-- Names with attributes in front, each followed by a semicolon or by declarations in braces. -/
inductive DeclarationsForm : Declarations → Tokens → Prop
  | nil : DeclarationsForm .nil .nil
  | leaf {ss : List Setting} {name : Identifier} {later : Declarations} {joined : Bool}
      {ts rest : Tokens} : AttributesForm ss ts (.word name (.punct ';' joined rest)) →
      name.isName → DeclarationsForm later rest →
      DeclarationsForm (.cons name (.ofSettings ss) .nil later) ts
  | branch {ss : List Setting} {name : Identifier} {children later : Declarations}
      {ts inner rest : Tokens} : AttributesForm ss ts (.word name (.group .brace inner rest)) →
      name.isName → DeclarationsForm children inner → DeclarationsForm later rest →
      DeclarationsForm (.cons name (.ofSettings ss) children later) ts

/-- The words that lead to a place besides names. -/
def places : List String := ["super", "self", "Self", "crate"]

/-- Names with double colons between them. -/
inductive PathForm : List Identifier → Tokens → Prop
  | last {i : Identifier} : i.isName ∨ i.text ∈ places → PathForm [i] (.word i .nil)
  | cons {i : Identifier} {path : List Identifier} {joined : Bool} {ts : Tokens} :
      i.isName ∨ i.text ∈ places → PathForm path ts →
      PathForm (i :: path) (.word i (.punct ':' true (.punct ':' joined ts)))

inductive ScopeForm : Visibility → Tokens → Prop
  | upTo {text : String} : text ∈ ["crate", "self", "super"] →
      ScopeForm (.upTo ⟨text, false⟩) (.word ⟨text, false⟩ .nil)
  | inside {path : List Identifier} {ts : Tokens} : PathForm path ts →
      ScopeForm (.inside false path) (.word ⟨"in", false⟩ ts)
  | absolute {path : List Identifier} {joined : Bool} {ts : Tokens} : PathForm path ts →
      ScopeForm (.inside true path)
        (.word ⟨"in", false⟩ (.punct ':' true (.punct ':' joined ts)))

/-- A visibility at the front of some tokens, and what follows it. -/
inductive VisibilityForm : Visibility → Tokens → Tokens → Prop
  | inherited {rest : Tokens} : VisibilityForm .inherited rest rest
  | everywhere {rest : Tokens} : VisibilityForm .everywhere (.word ⟨"pub", false⟩ rest) rest
  | limited {v : Visibility} {inner rest : Tokens} : ScopeForm v inner →
      VisibilityForm v (.word ⟨"pub", false⟩ (.group .paren inner rest)) rest

inductive BlockForm : Block → Tokens → Prop
  | mk {v : Visibility} {root : Identifier} {ds : Declarations} {ts inner : Tokens} :
      VisibilityForm v ts (.word ⟨"mod", false⟩ (.word root (.group .brace inner .nil))) →
      root.isName → DeclarationsForm ds inner → BlockForm ⟨v, root, ds⟩ ts

theorem Identifier.isWord_iff {i : Identifier} {text : String} :
    i.isWord text ↔ i = ⟨text, false⟩ := by
  obtain ⟨own, raw⟩ := i
  simp [isWord, and_comm]

theorem Attributes.noteRest_nil (a : Attributes) : a.noteRest .nil = a := rfl

theorem Attributes.eq_of_noteRest {a b : Attributes} {rest : Tokens} (h : a.noteRest rest = b)
    (hexcess : b.excess = false) : rest = .nil ∧ b = a := by
  cases rest with
  | nil => exact ⟨rfl, h.symm⟩
  | _ =>
      rw [← h] at hexcess
      cases hexcess

theorem Setting.excess_apply (a : Attributes) (s : Setting) : (s.apply a).excess = a.excess := by
  cases s <;> rfl

theorem Attributes.excess_ofSettings (ss : List Setting) : (ofSettings ss).excess = false := by
  induction ss using List.reverseRecOn with
  | nil => rfl
  | append_singleton ss s ih =>
      rw [ofSettings, List.foldl_concat, Setting.excess_apply, ← ofSettings, ih]

theorem ValueForm.assigned {s : StringLiteral} {ts : Tokens} (h : ValueForm s ts) :
    assigned ts = .ok (s, .nil) := by
  cases h with
  | mk hs => simp [Block.assigned, assigned?, hs]

theorem valueForm_of_assigned {s : StringLiteral} {ts : Tokens} (h : assigned ts = .ok (s, .nil)) :
    ValueForm s ts := by
  unfold assigned at h
  split at h
  · rename_i found hfound
    cases h
    unfold assigned? at hfound
    split at hfound
    · obtain ⟨s', hs, he⟩ := Option.map_eq_some_iff.mp hfound
      cases he
      exact .mk hs
    · cases hfound
  · cases h

theorem isName_key : ∀ text ∈ ["comment", "redirect", "deprecated", "note"],
    Identifier.isName ⟨text, false⟩ := by decide

theorem SettingForm.addAttribute {s : Setting} {ts : Tokens} (h : SettingForm s ts)
    (a : Attributes) : addAttribute a ts = .ok (s.apply a) := by
  cases h with
  | comment h =>
      simp [Block.addAttribute, h.assigned, isName_key, Identifier.isWord, Attributes.noteRest_nil,
        Setting.apply]
  | redirect h =>
      simp [Block.addAttribute, h.assigned, isName_key, Identifier.isWord, Attributes.noteRest_nil,
        Setting.apply]
  | deprecated =>
      simp [Block.addAttribute, isName_key, Identifier.isWord, Attributes.noteRest_nil,
        Setting.apply]
  | deprecatedEmpty =>
      simp [Block.addAttribute, deprecationNote, isName_key, Identifier.isWord, Except.map,
        Attributes.noteRest_nil, Setting.apply]
  | deprecatedFor h =>
      simp [Block.addAttribute, deprecationNote, h.assigned, isName_key, Identifier.isWord,
        Except.map, Attributes.noteRest_nil, Setting.apply]

theorem deprecationNote_form {a b : Attributes} {inner : Tokens}
    (h : deprecationNote a inner = .ok b) (hexcess : b.excess = false) :
    (inner = .nil ∧ b = a) ∨ ∃ s ts, inner = .word ⟨"note", false⟩ ts ∧ ValueForm s ts ∧
      b = { a with deprecation := some ⟨some s.value⟩ } := by
  unfold deprecationNote at h
  split at h
  · cases h
    exact .inl ⟨rfl, rfl⟩
  · rename_i key ts
    split at h
    · cases h
    split at h
    · cases h
    rename_i hkey
    have hkey := Identifier.isWord_iff.mp (by simpa using hkey)
    obtain ⟨⟨s, left⟩, hs, h⟩ := bind_eq_ok.mp h
    obtain ⟨rfl, rfl⟩ := Attributes.eq_of_noteRest (Except.ok.inj h) hexcess
    exact .inr ⟨s, ts, by rw [hkey], valueForm_of_assigned hs, rfl⟩
  · cases h

/-- Without tokens left over, an attribute that is read has the form of one. -/
theorem settingForm_of_addAttribute {a b : Attributes} {ts : Tokens}
    (h : addAttribute a ts = .ok b) (hexcess : b.excess = false) :
    ∃ s, SettingForm s ts ∧ b = s.apply a := by
  unfold addAttribute at h
  split at h
  · rename_i key ts
    split at h
    · cases h
    split at h
    · rename_i hkey
      obtain rfl := Identifier.isWord_iff.mp hkey
      dsimp only at h
      split at h
      · rename_i inner rest
        obtain ⟨noted, hnoted, h⟩ := map_ok_iff.mp h
        obtain ⟨rfl, rfl⟩ := Attributes.eq_of_noteRest h hexcess
        obtain ⟨rfl, rfl⟩ | ⟨s, ts, rfl, hs, rfl⟩ := deprecationNote_form hnoted hexcess
        · exact ⟨.deprecated, .deprecatedEmpty, rfl⟩
        · exact ⟨.deprecatedFor s, .deprecatedFor hs, rfl⟩
      · obtain ⟨rfl, rfl⟩ := Attributes.eq_of_noteRest (Except.ok.inj h) hexcess
        exact ⟨.deprecated, .deprecated, rfl⟩
    split at h
    · rename_i hkey
      obtain rfl := Identifier.isWord_iff.mp hkey
      obtain ⟨⟨s, left⟩, hs, h⟩ := bind_eq_ok.mp h
      obtain ⟨rfl, rfl⟩ := Attributes.eq_of_noteRest (Except.ok.inj h) hexcess
      exact ⟨.redirect s, .redirect (valueForm_of_assigned hs), rfl⟩
    split at h
    · rename_i hkey
      obtain rfl := Identifier.isWord_iff.mp hkey
      obtain ⟨⟨s, left⟩, hs, h⟩ := bind_eq_ok.mp h
      obtain ⟨rfl, rfl⟩ := Attributes.eq_of_noteRest (Except.ok.inj h) hexcess
      exact ⟨.comment s, .comment (valueForm_of_assigned hs), rfl⟩
    · cases h
  · cases h

theorem AttributesForm.snoc {ss : List Setting} {s : Setting} {joined : Bool}
    {before inner rest : Tokens}
    (h : AttributesForm ss before (.punct '#' joined (.group .bracket inner rest)))
    (hs : SettingForm s inner) : AttributesForm (ss ++ [s]) before rest := by
  generalize hfront : Tokens.punct '#' joined (.group .bracket inner rest) = front at h
  induction h with
  | nil => exact hfront ▸ .cons hs .nil
  | cons hform _ ih => exact .cons hform (ih hfront)

/-- What is known of attributes after one more of them; before the first there is nothing. -/
def Setting.note (pending : Option Attributes) (s : Setting) : Option Attributes :=
  some (s.apply (pending.getD {}))

theorem getD_foldl_note (ss : List Setting) (pending : Option Attributes) :
    (ss.foldl Setting.note pending).getD {} = ss.foldl Setting.apply (pending.getD {}) := by
  induction ss generalizing pending with
  | nil => rfl
  | cons s ss ih => exact ih _

theorem getD_settings (ss : List Setting) :
    (ss.foldl Setting.note none).getD {} = Attributes.ofSettings ss := getD_foldl_note ss none

theorem AttributesForm.readDeclarations {ss : List Setting} {ts rest : Tokens}
    (h : AttributesForm ss ts rest) (pending : Option Attributes) (seen : List Identifier) :
    readDeclarations pending seen ts =
      readDeclarations (ss.foldl Setting.note pending) seen rest := by
  induction h generalizing pending with
  | nil => rfl
  | cons hs _ ih =>
      rw [Block.readDeclarations, hs.addAttribute, ok_bind, ih, List.foldl_cons, Setting.note]

/-- When a declaration and those after it are well formed with names other than those before it. -/
theorem Declarations.wellFormed_cons_iff {seen : List Identifier} {name : Identifier}
    {a : Attributes} {children rest : Declarations} :
    (Declarations.cons name a children rest).WellFormed ∧
        (∀ i ∈ (Declarations.cons name a children rest).level, i ∉ seen) ↔
      name ∉ seen ∧ (a.redirect.isSome → children = .nil) ∧ children.WellFormed ∧
        rest.WellFormed ∧ ∀ i ∈ rest.level, i ∉ name :: seen := by
  constructor
  · rintro ⟨hwf, hlevel⟩
    obtain ⟨hname, hlevel⟩ := List.forall_mem_cons.mp hlevel
    cases hwf with
    | cons hnew hleaf hchildren hrest =>
        refine ⟨hname, hleaf, hchildren, hrest, ?_⟩
        intro i hi hmem
        rcases List.mem_cons.mp hmem with rfl | hmem
        · exact hnew hi
        · exact hlevel i hi hmem
  · rintro ⟨hname, hleaf, hchildren, hrest⟩
    exact WellFormed.cons_new hname hleaf hchildren hrest

theorem Declarations.not_isEmpty_iff {ds : Declarations} : (!ds.isEmpty) ↔ ds ≠ .nil := by
  cases ds <;> simp [isEmpty]

section
variable {pending : Option Attributes} {seen : List Identifier} {name : Identifier} {joined : Bool}
  {inner rest : Tokens} {ds : Declarations} (hname : name.isName)
include hname

theorem read_leaf_iff :
    readDeclarations pending seen (.word name (.punct ';' joined rest)) = .ok ds ↔ name ∉ seen ∧
      ∃ later, readDeclarations none (name :: seen) rest = .ok later ∧
        ds = .cons name (pending.getD {}) .nil later := by
  simp only [readDeclarations, hname]
  by_cases hseen : name ∈ seen
  · simp [hseen]
  · rw [if_neg (by simp), if_neg (by simpa using hseen), bind_eq_ok, and_iff_right hseen]
    exact exists_congr fun later => and_congr_right fun _ => pure_eq_ok

theorem read_branch_iff :
    readDeclarations pending seen (.word name (.group .brace inner rest)) = .ok ds ↔ name ∉ seen ∧
      ∃ children, readDeclarations none [] inner = .ok children ∧
        ((pending.getD {}).redirect.isSome → children = .nil) ∧
        ∃ later, readDeclarations none (name :: seen) rest = .ok later ∧
          ds = .cons name (pending.getD {}) children later := by
  simp only [readDeclarations, hname]
  by_cases hseen : name ∈ seen
  · simp [hseen]
  · rw [if_neg (by simp), if_neg (by simpa using hseen), bind_eq_ok, and_iff_right hseen]
    refine exists_congr fun children => and_congr_right fun _ => ?_
    by_cases hleaf : (pending.getD {}).redirect.isSome → children = .nil
    · rw [if_neg, bind_eq_ok, and_iff_right hleaf]
      · exact exists_congr fun later => and_congr_right fun _ => pure_eq_ok
      · rintro ⟨hsome, hne⟩
        exact Declarations.not_isEmpty_iff.mp hne (hleaf hsome)
    · obtain ⟨hsome, hne⟩ := Classical.not_imp.mp hleaf
      rw [if_pos ⟨hsome, Declarations.not_isEmpty_iff.mpr hne⟩]
      exact iff_of_false nofun fun h => hleaf h.1

end

/-- Tokens of this form are read unless two names are the same or a redirect has something inside. -/
theorem DeclarationsForm.read_iff {ds : Declarations} {ts : Tokens} (h : DeclarationsForm ds ts)
    (seen : List Identifier) (ds' : Declarations) :
    readDeclarations none seen ts = .ok ds' ↔
      ds' = ds ∧ ds.WellFormed ∧ ∀ i ∈ ds.level, i ∉ seen := by
  induction h generalizing seen ds' with
  | nil =>
      constructor
      · intro h
        exact ⟨(Except.ok.inj h).symm, .nil, List.forall_mem_nil _⟩
      · rintro ⟨rfl, _⟩
        rfl
  | @leaf ss name later joined ts rest hss hname _ ih =>
      rw [hss.readDeclarations, read_leaf_iff hname, Declarations.wellFormed_cons_iff,
        getD_settings]
      constructor
      · rintro ⟨hseen, later', hlater, rfl⟩
        obtain ⟨rfl, hwf⟩ := (ih ..).mp hlater
        exact ⟨rfl, hseen, fun _ => rfl, .nil, hwf⟩
      · rintro ⟨rfl, hseen, _, _, hwf⟩
        exact ⟨hseen, later, (ih ..).mpr ⟨rfl, hwf⟩, rfl⟩
  | @branch ss name children later ts inner rest hss hname _ _ ihinner ihrest =>
      rw [hss.readDeclarations, read_branch_iff hname, Declarations.wellFormed_cons_iff,
        getD_settings]
      constructor
      · rintro ⟨hseen, children', hchildren, hleaf, later', hlater, rfl⟩
        obtain ⟨rfl, hinner, _⟩ := (ihinner ..).mp hchildren
        obtain ⟨rfl, hwf⟩ := (ihrest ..).mp hlater
        exact ⟨rfl, hseen, hleaf, hinner, hwf⟩
      · rintro ⟨rfl, hseen, hleaf, hinner, hwf⟩
        have hchildren := (ihinner [] children).mpr ⟨rfl, hinner, fun _ _ => List.not_mem_nil⟩
        exact ⟨hseen, children, hchildren, hleaf, later, (ihrest ..).mpr ⟨rfl, hwf⟩, rfl⟩

theorem Declarations.hasExcess_cons {name : Identifier} {a : Attributes}
    {children rest : Declarations} : (Declarations.cons name a children rest).hasExcess = false ↔
      a.excess = false ∧ children.hasExcess = false ∧ rest.hasExcess = false := by
  simp [hasExcess, and_assoc]

theorem DeclarationsForm.hasExcess {ds : Declarations} {ts : Tokens} (h : DeclarationsForm ds ts) :
    ds.hasExcess = false := by
  induction h with
  | nil => rfl
  | @leaf ss _ _ _ _ _ _ _ _ ih =>
      exact Declarations.hasExcess_cons.mpr ⟨Attributes.excess_ofSettings ss, rfl, ih⟩
  | @branch ss _ _ _ _ _ _ _ _ _ _ ihinner ihrest =>
      exact Declarations.hasExcess_cons.mpr ⟨Attributes.excess_ofSettings ss, ihinner, ihrest⟩

theorem excess_of_readDeclarations {a : Attributes} {seen : List Identifier} {ts : Tokens}
    {ds : Declarations} (h : readDeclarations (some a) seen ts = .ok ds)
    (hexcess : ds.hasExcess = false) : a.excess = false := by
  generalize hpending : some a = pending at h
  fun_induction readDeclarations pending seen ts generalizing a ds with
  | case1 pending seen hnone =>
      rw [← hpending] at hnone
      cases hnone
  | case3 pending seen joined inner rest ih =>
      obtain ⟨b, hb, h⟩ := bind_eq_ok.mp h
      have hlater := ih b hexcess rfl h
      obtain ⟨s, _, rfl⟩ := settingForm_of_addAttribute hb hlater
      rw [← hpending] at hlater
      rwa [Setting.excess_apply] at hlater
  | case6 =>
      obtain ⟨children, _, h⟩ := bind_eq_ok.mp h
      split at h
      · cases h
      · obtain ⟨later, _, h⟩ := bind_eq_ok.mp h
        cases h
        subst hpending
        exact (Declarations.hasExcess_cons.mp hexcess).1
  | case7 =>
      obtain ⟨later, _, h⟩ := bind_eq_ok.mp h
      cases h
      subst hpending
      exact (Declarations.hasExcess_cons.mp hexcess).1
  | _ => cases h

/-- What is read without anything left over has the form of declarations, together with the
attributes that were read before. -/
theorem declarationsForm_of_read {pending : Option Attributes} {seen : List Identifier}
    {ts : Tokens} {ds : Declarations} (h : readDeclarations pending seen ts = .ok ds)
    (hexcess : ds.hasExcess = false) {ss : List Setting} {before : Tokens}
    (hbefore : AttributesForm ss before ts) (hpending : pending = ss.foldl Setting.note none) :
    DeclarationsForm ds before := by
  fun_induction readDeclarations pending seen ts generalizing ss before ds with
  | case1 pending seen hnone =>
      cases h
      rcases List.eq_nil_or_concat ss with rfl | ⟨ss, s, rfl⟩
      · cases hbefore
        exact .nil
      · rw [hpending, List.concat_eq_append, List.foldl_concat] at hnone
        cases hnone
  | case3 pending seen joined inner rest ih =>
      obtain ⟨b, hb, h⟩ := bind_eq_ok.mp h
      obtain ⟨s, hs, rfl⟩ := settingForm_of_addAttribute hb (excess_of_readDeclarations h hexcess)
      refine ih _ h hexcess (hbefore.snoc hs) ?_
      rw [hpending, List.foldl_concat, Setting.note]
  | case6 =>
      rename_i pending seen name hname _ noted inner rest ihinner ihrest
      obtain ⟨children, hchildren, h⟩ := bind_eq_ok.mp h
      split at h
      · cases h
      · obtain ⟨later, hlater, h⟩ := bind_eq_ok.mp h
        cases h
        obtain ⟨_, hinner, hrest⟩ := Declarations.hasExcess_cons.mp hexcess
        have hnoted : noted = .ofSettings ss := by rw [← getD_settings, ← hpending]
        rw [hnoted]
        exact .branch hbefore (by simpa using hname) (ihinner hchildren hinner .nil rfl)
          (ihrest hlater hrest .nil rfl)
  | case7 =>
      rename_i pending seen name hname _ noted joined rest ih
      obtain ⟨later, hlater, h⟩ := bind_eq_ok.mp h
      cases h
      obtain ⟨_, _, hrest⟩ := Declarations.hasExcess_cons.mp hexcess
      have hnoted : noted = .ofSettings ss := by rw [← getD_settings, ← hpending]
      rw [hnoted]
      exact .leaf hbefore (by simpa using hname) (ih hlater hrest .nil rfl)
  | _ => cases h

theorem pathOf?_iff {path : List Identifier} {ts : Tokens} :
    pathOf? ts = some (path, .nil) ↔ PathForm path ts := by
  constructor
  · intro h
    fun_induction pathOf? ts generalizing path with
    | case1 i hi joined rest ih =>
        obtain ⟨⟨later, left⟩, hlater, he⟩ := Option.map_eq_some_iff.mp h
        cases he
        exact .cons (by simpa [places] using hi) (ih hlater)
    | case2 i hi rest =>
        cases h
        exact .last (by simpa [places] using hi)
    | _ => cases h
  · intro h
    induction h with
    | last hi => simpa [pathOf?, places, or_iff_not_imp_left] using hi
    | @cons i path joined ts hi _ ih =>
        rw [pathOf?, if_pos (by simpa [places] using hi), ih]
        rfl

theorem absolutePathOf?_iff {v : Visibility} {ts : Tokens} :
    absolutePathOf? ts = some (v, .nil) ↔ ScopeForm v (.word ⟨"in", false⟩ ts) := by
  constructor
  · intro h
    unfold absolutePathOf? at h
    split at h
    · obtain ⟨⟨path, left⟩, hpath, he⟩ := Option.map_eq_some_iff.mp h
      cases he
      exact .absolute (pathOf?_iff.mp hpath)
    · obtain ⟨⟨path, left⟩, hpath, he⟩ := Option.map_eq_some_iff.mp h
      cases he
      exact .inside (pathOf?_iff.mp hpath)
  · intro h
    cases h with
    | upTo h => simp at h
    | inside h =>
        have hpath := pathOf?_iff.mpr h
        cases h <;> simp [absolutePathOf?, hpath]
    | absolute h =>
        rw [absolutePathOf?, pathOf?_iff.mpr h]
        rfl

theorem scopeOf?_in (ts : Tokens) : scopeOf? (.word ⟨"in", false⟩ ts) = absolutePathOf? ts := by
  simp [scopeOf?, Identifier.isWord]

theorem ScopeForm.scopeOf? {v : Visibility} {ts : Tokens} (h : ScopeForm v ts) :
    scopeOf? ts = some (v, .nil) := by
  cases h with
  | upTo h =>
      simp only [List.mem_cons, List.not_mem_nil, or_false] at h
      rcases h with rfl | rfl | rfl <;> rfl
  | inside h => exact scopeOf?_in _ ▸ absolutePathOf?_iff.mpr (.inside h)
  | absolute h => exact scopeOf?_in _ ▸ absolutePathOf?_iff.mpr (.absolute h)

theorem scopeForm_of_scopeOf? {v : Visibility} {ts : Tokens} (h : scopeOf? ts = some (v, .nil)) :
    ScopeForm v ts := by
  unfold scopeOf? at h
  split at h
  · rename_i i rest
    split at h
    · rename_i hin
      obtain rfl := Identifier.isWord_iff.mp hin
      exact absolutePathOf?_iff.mp h
    split at h
    · rename_i hupTo
      obtain ⟨hany, rfl⟩ := hupTo
      cases h
      obtain ⟨text, htext, hi⟩ := List.any_eq_true.mp hany
      obtain rfl := Identifier.isWord_iff.mp hi
      exact .upTo htext
    · cases h
  · cases h

theorem visibilityForm_of_visibilityOf? {v : Visibility} {ts rest : Tokens}
    (h : visibilityOf? ts = some (v, .nil, rest)) : VisibilityForm v ts rest := by
  unfold visibilityOf? at h
  split at h
  · split at h
    · rename_i hpub
      obtain rfl := Identifier.isWord_iff.mp hpub
      split at h
      · obtain ⟨⟨scope, left⟩, hscope, he⟩ := Option.map_eq_some_iff.mp h
        cases he
        exact .limited (scopeForm_of_scopeOf? hscope)
      · cases h
        exact .everywhere
    · cases h
      exact .inherited
  · cases h
    exact .inherited

/-- A visibility in front of a word that announces none is read as it is. -/
theorem VisibilityForm.visibilityOf? {v : Visibility} {ts after : Tokens} {i : Identifier}
    (hi : i.isWord "pub" = false) (h : VisibilityForm v ts (.word i after)) :
    visibilityOf? ts = some (v, .nil, .word i after) := by
  cases h with
  | inherited => simp [Block.visibilityOf?, hi]
  | everywhere => simp [Block.visibilityOf?, Identifier.isWord]
  | limited hscope => simp [Block.visibilityOf?, Identifier.isWord, hscope.scopeOf?]

theorem blockForm_of_ofTokens {ts : Tokens} {b : Block} (h : ofTokens ts = .ok b) :
    BlockForm b ts := by
  unfold ofTokens at h
  split at h
  · rename_i v left root inner rest hhead
    obtain ⟨ds, hds, hok⟩ := bind_eq_ok.mp h
    split at hok
    · rename_i hclean
      obtain ⟨rfl, rfl, hexcess⟩ := hclean
      cases hok
      unfold headOf? at hhead
      split at hhead
      · rename_i hvisibility
        split at hhead
        · rename_i hwords
          cases hhead
          obtain ⟨hmod, hroot⟩ := hwords
          obtain rfl := Identifier.isWord_iff.mp hmod
          have hdeclarations := declarationsForm_of_read hds (by simpa using hexcess) .nil rfl
          exact .mk (visibilityForm_of_visibilityOf? hvisibility) hroot hdeclarations
        · cases hhead
      · cases hhead
    · cases hok
  · cases h

/-- Tokens of the form of a block are read as this block, unless two names on a level are the same or
something is inside a redirected declaration. -/
theorem BlockForm.ofTokens_iff {ts : Tokens} {b : Block} (h : BlockForm b ts) (b' : Block) :
    ofTokens ts = .ok b' ↔ b' = b ∧ b.declarations.WellFormed := by
  cases h with
  | @mk v root ds ts inner hvisibility hroot hdeclarations =>
      have hhead : headOf? ts = some (v, .nil, root, inner, .nil) := by
        simp [headOf?, hvisibility.visibilityOf? (by decide), hroot, Identifier.isWord]
      have hread := hdeclarations.read_iff []
      simp only [List.not_mem_nil, not_false_iff, implies_true, and_true] at hread
      simp only [ofTokens, hhead]
      constructor
      · intro hok
        obtain ⟨ds', hds, hok⟩ := bind_eq_ok.mp hok
        obtain ⟨rfl, hwf⟩ := (hread ds').mp hds
        rw [if_pos ⟨trivial, trivial, by simp [hdeclarations.hasExcess]⟩] at hok
        exact ⟨(Except.ok.inj hok).symm, hwf⟩
      · rintro ⟨rfl, hwf⟩
        rw [(hread ds).mpr ⟨rfl, hwf⟩, ok_bind, hdeclarations.hasExcess]
        rfl

theorem AttributesForm.spelt {ss : List Setting} {ts rest : Tokens}
    (h : AttributesForm ss ts rest) (hts : ts.Spelt) : rest.Spelt := by
  induction h with
  | nil => exact hts
  | cons _ _ ih => exact ih hts.2

theorem DeclarationsForm.spelt {ds : Declarations} {ts : Tokens} (h : DeclarationsForm ds ts)
    (hts : ts.Spelt) : ds.Spelt := by
  induction h with
  | nil => trivial
  | leaf hss _ _ ih =>
      obtain ⟨hname, hrest⟩ := hss.spelt hts
      exact ⟨hname, trivial, ih hrest⟩
  | branch hss _ _ _ ihinner ihrest =>
      obtain ⟨hname, hinner, hrest⟩ := hss.spelt hts
      exact ⟨hname, ihinner hinner, ihrest hrest⟩

theorem BlockForm.declarations_spelt {ts : Tokens} {b : Block} (h : BlockForm b ts)
    (hts : ts.Spelt) : b.declarations.Spelt := by
  cases h with
  | mk hvisibility _ hdeclarations =>
      apply hdeclarations.spelt
      cases hvisibility with
      | inherited => exact hts.2.2.1
      | everywhere => exact hts.2.2.2.1
      | limited _ => exact hts.2.2.2.2.1

end TagTree.Block
