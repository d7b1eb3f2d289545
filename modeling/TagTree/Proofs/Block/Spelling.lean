import Mathlib.Data.List.TakeWhile
import TagTree.Block.Token
import TagTree.Proofs.Name.Ancestors

/-!
# Spelling of identifiers

Whatever a text is cut into, its words are spelt as identifiers: no character of
a word is blank, a delimiter or a dot. So the name of an identifier is a plain
segment, and a name that is put together from such segments has no fault but,
perhaps, that it is the reserved one.

The tables of characters are large, so the facts about them are decided once and
by comparing ranges: two classes given by ranges have no character in common if
no two of their ranges overlap. With this a character of an identifier is
neither blank nor a delimiter, a dot or the mark of raw words.

From single words the property is carried through the cutting of a text into
lexemes and through the nesting of the lexemes, each by induction on the
recursion that does it; a bracket, a literal or a piece of punctuation has no
word to speak of. So the names of accepted blocks can be trusted without a look
at the text.
-/

namespace TagTree

namespace Char

/-- Two classes without a range in common have no character in common. -/
theorem not_inRanges_of_disjoint {left right : List (Nat × Nat)}
    (h : ∀ p ∈ left, ∀ q ∈ right, p.2 < q.1 ∨ q.2 < p.1) {c : Char} (hc : inRanges left c) :
    inRanges right c = false := by
  obtain ⟨p, hp, hpc⟩ := List.any_eq_true.mp hc
  rw [inRanges, List.any_eq_false]
  intro q hq hqc
  simp only [Bool.and_eq_true, decide_eq_true_eq] at hpc hqc
  have hpq := h p hp q hq
  omega

end Char

/-- What a character needs to stand inside a segment of a name, and not to announce a raw word. -/
def Unmarked (c : Char) : Prop :=
  isBlank c = false ∧ Name.isDelimiter c = false ∧ c ≠ '.' ∧ c ≠ '#'

instance (c : Char) : Decidable (Unmarked c) := inferInstanceAs (Decidable (_ ∧ _ ∧ _ ∧ _))

theorem unmarked_of_ascii {c : Char} (hlt : c.toNat < 0x80) (h : isIdentifierContinue c) :
    Unmarked c := by
  have hall : ∀ n < 0x80, isIdentifierContinue (Char.ofNat n) → Unmarked (Char.ofNat n) := by
    decide +kernel
  have hc := hall c.toNat hlt
  rw [Char.ofNat_toNat] at hc
  exact hc h

theorem unmarked_of_table {c : Char} (hge : 0x80 ≤ c.toNat) (hblank : isBlank c = false) :
    Unmarked c := by
  have hne : ∀ d : Char, d.toNat < 0x80 → c ≠ d := by
    rintro d hd rfl
    omega
  refine ⟨hblank, ?_, hne _ (by decide), hne _ (by decide)⟩
  simp [Name.isDelimiter, hne '"' (by decide), hne '\'' (by decide), hne ',' (by decide),
    hne '(' (by decide), hne ')' (by decide), hne '=' (by decide), hne '\\' (by decide)]

theorem unmarked_of_continue {c : Char} (h : isIdentifierContinue c) : Unmarked c := by
  by_cases hlt : c.toNat < 0x80
  · exact unmarked_of_ascii hlt h
  · have hstart : ∀ p ∈ identifierStartRanges, ∀ q ∈ blankRanges, p.2 < q.1 ∨ q.2 < p.1 := by
      decide +kernel
    have htail : ∀ p ∈ identifierTailRanges, ∀ q ∈ blankRanges, p.2 < q.1 ∨ q.2 < p.1 := by
      decide +kernel
    rw [isIdentifierContinue, isIdentifierStart, if_neg hlt, if_neg hlt, Bool.or_eq_true] at h
    refine unmarked_of_table (by omega) ?_
    rcases h with h | h
    · exact Char.not_inRanges_of_disjoint hstart h
    · exact Char.not_inRanges_of_disjoint htail h

namespace Block

def Identifier.Spelt (i : Identifier) : Prop :=
  ∃ c rest, i.text.toList = c :: rest ∧ isIdentifierStart c ∧ ∀ d ∈ rest, isIdentifierContinue d

theorem wordAt?_spelt {cs word rest : List Char} (h : wordAt? cs = some (word, rest)) (raw : Bool) :
    Identifier.Spelt ⟨String.ofList word, raw⟩ := by
  cases cs with
  | nil => cases h
  | cons c cs =>
      rw [wordAt?] at h
      split at h
      · rename_i hstart
        cases h
        refine ⟨c, cs.takeWhile isIdentifierContinue, String.toList_ofList, hstart, ?_⟩
        intro d hd
        exact List.mem_takeWhile_imp hd
      · cases h

theorem identifierAt?_spelt {cs rest : List Char} {i : Identifier}
    (h : identifierAt? cs = some (i, rest)) : i.Spelt := by
  unfold identifierAt? at h
  split at h
  · obtain ⟨⟨word, left⟩, hword, h⟩ := Option.bind_eq_some_iff.mp h
    dsimp only at h
    split at h
    · cases h
    · cases h
      exact wordAt?_spelt hword true
  · obtain ⟨⟨word, left⟩, hword, heq⟩ := Option.map_eq_some_iff.mp h
    cases heq
    exact wordAt?_spelt hword false

/-- Words among lexemes are spelt as identifiers. -/
def Lexeme.Spelt : Lexeme → Prop
  | .word i => i.Spelt
  | _ => True

theorem bracket?_spelt {c : Char} {l : Lexeme} (h : bracket? c = some l) : l.Spelt := by
  unfold bracket? at h
  split at h <;> cases h <;> trivial

theorem punctuationAt?_spelt {cs rest : List Char} {l : Lexeme}
    (h : punctuationAt? cs = some (l, rest)) : l.Spelt := by
  unfold punctuationAt? at h
  split at h
  · split at h
    · cases h
    split at h
    · split at h
      · cases h
        trivial
      · cases h
    · cases h
      trivial
  · cases h

theorem lexemeAt?_spelt {cs rest : List Char} {l : Lexeme} (h : lexemeAt? cs = some (l, rest)) :
    l.Spelt := by
  unfold lexemeAt? at h
  split at h
  · cases h
    trivial
  split at h
  · rename_i hbracket
    cases h
    obtain ⟨c, _, hc⟩ := Option.bind_eq_some_iff.mp hbracket
    exact bracket?_spelt hc
  split at h
  · cases h
    trivial
  split at h
  · rename_i hpunct
    cases h
    exact punctuationAt?_spelt hpunct
  split at h
  · cases h
  · obtain ⟨⟨i, left⟩, hi, heq⟩ := Option.map_eq_some_iff.mp h
    cases heq
    exact identifierAt?_spelt hi

theorem documentationLexemes_spelt (inner : Bool) (text : List Char) :
    ∀ l ∈ documentationLexemes inner text, l.Spelt := by
  have hrest : ∀ d ∈ ['o', 'c'], isIdentifierContinue d := by
    rw [List.forall_mem_cons, List.forall_mem_singleton]
    decide
  have hdoc : Identifier.Spelt ⟨"doc", false⟩ := ⟨'d', ['o', 'c'], rfl, by decide, hrest⟩
  cases inner <;> simp [documentationLexemes, Lexeme.Spelt, hdoc]

theorem lexemes?_spelt {bound : Nat} {cs : List Char} {ls : List Lexeme}
    (h : lexemes? bound cs = some ls) : ∀ l ∈ ls, l.Spelt := by
  induction bound generalizing cs ls with
  | zero => cases h
  | succ bound ih =>
      unfold lexemes? at h
      split at h
      · cases h
        exact List.forall_mem_nil _
      split at h
      · split at h
        · obtain ⟨later, hlater, rfl⟩ := Option.map_eq_some_iff.mp h
          exact List.forall_mem_append.mpr ⟨documentationLexemes_spelt _ _, ih hlater⟩
        · cases h
      · obtain ⟨⟨l, rest⟩, hl, h⟩ := Option.bind_eq_some_iff.mp h
        obtain ⟨later, hlater, rfl⟩ := Option.map_eq_some_iff.mp h
        exact List.forall_mem_cons.mpr ⟨lexemeAt?_spelt hl, ih hlater⟩

namespace Tokens

def Spelt : Tokens → Prop
  | nil => True
  | word i rest => i.Spelt ∧ rest.Spelt
  | punct _ _ rest => rest.Spelt
  | literal _ rest => rest.Spelt
  | group _ inner rest => inner.Spelt ∧ rest.Spelt

theorem before_spelt {l : Lexeme} {now now' : Tokens × List (Delimiter × Tokens)} (hl : l.Spelt)
    (hnow : now.1.Spelt ∧ ∀ g ∈ now.2, g.2.Spelt) (h : before l now = some now') :
    now'.1.Spelt ∧ ∀ g ∈ now'.2, g.2.Spelt := by
  obtain ⟨hfirst, houter⟩ := hnow
  unfold before at h
  cases l with
  | word i =>
      cases h
      exact ⟨⟨hl, hfirst⟩, houter⟩
  | punct c joined =>
      cases h
      exact ⟨hfirst, houter⟩
  | literal written =>
      cases h
      exact ⟨hfirst, houter⟩
  | closing d =>
      cases h
      exact ⟨trivial, List.forall_mem_cons.mpr ⟨hfirst, houter⟩⟩
  | opening d =>
      dsimp only at h
      split at h
      · rename_i hgroups
        rw [hgroups] at houter
        obtain ⟨hrest, houter⟩ := List.forall_mem_cons.mp houter
        split at h
        · cases h
          exact ⟨⟨hfirst, hrest⟩, houter⟩
        · cases h
      · cases h

theorem ofLexemes?_spelt {ls : List Lexeme} {ts : Tokens} (hls : ∀ l ∈ ls, l.Spelt)
    (h : ofLexemes? ls = some ts) : ts.Spelt := by
  have hfold : ∀ now, ls.foldrM before (.nil, []) = some now →
      now.1.Spelt ∧ ∀ g ∈ now.2, g.2.Spelt := by
    clear h
    induction ls with
    | nil =>
        rintro now h
        cases h
        exact ⟨trivial, List.forall_mem_nil _⟩
    | cons l ls ih =>
        intro now h
        obtain ⟨hl, hls⟩ := List.forall_mem_cons.mp hls
        rw [List.foldrM_cons] at h
        obtain ⟨last, hlast, h⟩ := Option.bind_eq_some_iff.mp h
        exact before_spelt hl (ih hls last hlast) h
  unfold ofLexemes? at h
  split at h
  · rename_i hresult
    cases h
    exact (hfold _ hresult).1
  · cases h

theorem ofText?_spelt {text : String} {ts : Tokens} (h : ofText? text = some ts) : ts.Spelt := by
  obtain ⟨ls, hls, h⟩ := Option.bind_eq_some_iff.mp h
  exact ofLexemes?_spelt (lexemes?_spelt hls) h

end Tokens

theorem Identifier.Spelt.unmarked {i : Identifier} (h : i.Spelt) :
    ∀ c ∈ i.text.toList, Unmarked c := by
  obtain ⟨c, rest, htext, hstart, hrest⟩ := h
  rw [htext]
  refine List.forall_mem_cons.mpr ⟨unmarked_of_continue ?_, ?_⟩
  · rw [isIdentifierContinue, hstart, Bool.true_or]
  · intro d hd
    exact unmarked_of_continue (hrest d hd)

theorem Identifier.mem_name {i : Identifier} {c : Char} (hc : c ∈ i.name.toList) :
    c = 'r' ∨ c = '#' ∨ c ∈ i.text.toList := by
  unfold name at hc
  split at hc
  · simpa using hc
  · exact .inr (.inr hc)

theorem Identifier.Spelt.plain {i : Identifier} (h : i.Spelt) : Name.Plain i.name := by
  constructor
  · obtain ⟨c, rest, htext, _⟩ := h
    intro he
    have hlist := congrArg String.toList he
    unfold name at hlist
    split at hlist <;> simp [htext] at hlist
  · intro hdot
    rcases mem_name hdot with hc | hc | hc
    · cases hc
    · cases hc
    · exact (h.unmarked _ hc).2.2.1 rfl

theorem Identifier.Spelt.legible {i : Identifier} (h : i.Spelt) : Name.Legible i.name := by
  refine .of_plain h.plain ?_
  intro c hc
  rcases mem_name hc with rfl | rfl | hc
  · decide
  · decide
  · exact ⟨(h.unmarked c hc).1, (h.unmarked c hc).2.1⟩

/-- The mark of a raw word stands in no other, so a name tells which identifier it is of. -/
theorem Identifier.Spelt.name_inj {i j : Identifier} (hi : i.Spelt) (hj : j.Spelt) :
    i.name = j.name ↔ i = j := by
  have hmark : ∀ {k : Identifier}, k.Spelt → ∀ text, k.text ≠ "r#" ++ text := by
    intro k hk text he
    exact (hk.unmarked '#' (by simp [he])).2.2.2 rfl
  obtain ⟨s, raw⟩ := i
  obtain ⟨t, raw'⟩ := j
  cases raw <;> cases raw' <;> simp [name]
  · exact hmark hi t
  · exact fun he => hmark hj s he.symm

end Block
end TagTree
